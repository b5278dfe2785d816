/-!
# Cutting text at a separator

The segments of a text are what stands between its separators. An empty text has
one segment, the empty one.
-/
namespace SettingsTree.Text

/-- Cuts characters at a separator into the first segment and the others. -/
def cut (separator : Char) : List Char → List Char × List (List Char)
  | [] => ([], [])
  | c :: rest =>
      let (first, others) := cut separator rest
      if c = separator then ([], first :: others) else (c :: first, others)

theorem cut_of_not_mem {separator : Char} {text : List Char} (absent : separator ∉ text) :
    cut separator text = (text, []) := by
  induction text with
  | nil => rfl
  | cons c rest ih =>
      simp only [List.mem_cons, not_or] at absent
      obtain ⟨different, later⟩ := absent
      simp [cut, ih later, Ne.symm different]

end SettingsTree.Text
