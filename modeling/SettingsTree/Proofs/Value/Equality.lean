import SettingsTree.Proofs.Value.Maps

/-!
# Equality of values

Two values are equal in their order if they have the same form with equal contents. Only numbers
with a fractional part can be equal without being the same: the two zeros, and what is no number.
Equality is symmetric and transitive, and it is reflexive (`Value.same_self`).
-/
namespace SettingsTree

theorem FloatKind.rank_injective {a b : FloatKind} (same : a.rank = b.rank) : a = b := by
  cases a <;> cases b <;> first | rfl | (simp [rank] at same)

namespace Value

/-- How two values are equal: they are the same, or they have one form and equal contents. -/
inductive Matched : Value → Value → Prop where
  | self (v : Value) : Matched v v
  | float {x y : SizedFloat} (kind : x.kind = y.kind) (key : x.orderKey = y.orderKey) :
      Matched (.float x) (.float y)
  | just {a b : Value} (inner : a.compare b = .eq) : Matched (.just a) (.just b)
  | newtype {a b : Value} (inner : a.compare b = .eq) : Matched (.newtype a) (.newtype b)
  | seq {a b : List Value} (items : compareItems a b = .eq) : Matched (.seq a) (.seq b)
  | map {a b : List (Value × Value)} (entries : compareEntries a b = .eq) :
      Matched (.map a) (.map b)

theorem matched_of_compare {v w : Value} (h : v.compare w = .eq) : Matched v w := by
  cases v <;> cases w <;> simp [compare, rank, Ordering.then_eq_eq] at h
  case bool.bool | char.char | str.str => exact h ▸ .self _
  case unit.unit | nothing.nothing => exact .self _
  case int.int a b =>
    obtain ⟨kind, val, fits⟩ := a
    obtain ⟨kind', val', fits'⟩ := b
    obtain ⟨hkind, rfl⟩ : kind.rank = kind'.rank ∧ val = val' := h
    obtain rfl := IntKind.rank_injective hkind
    exact .self _
  case float.float => exact .float (FloatKind.rank_injective h.1) h.2
  case just.just => exact .just h
  case newtype.newtype => exact .newtype h
  case seq.seq => exact .seq h
  case map.map => exact .map h
  case bytes.bytes =>
    obtain rfl := (List.map_inj_right fun _ _ => UInt8.toNat_inj.1).1 h
    exact .self _

theorem compare_float {x y : SizedFloat} (kind : x.kind = y.kind)
    (key : x.orderKey = y.orderKey) : (Value.float x).compare (.float y) = .eq := by
  rw [compare, kind, key, Std.ReflOrd.compare_self, Std.ReflOrd.compare_self]
  rfl

theorem Matched.compare {v w : Value} (h : Matched v w) : v.compare w = .eq := by
  cases h with
  | self v => exact compare_self v
  | float kind key => exact compare_float kind key
  | just inner | newtype inner => rwa [Value.compare]
  | seq items => rwa [Value.compare]
  | map entries => rwa [Value.compare]

mutual

theorem Matched.symm : ∀ {v w : Value}, Matched v w → w.compare v = .eq
  | _, _, .self v => compare_self v
  | .float _, .float _, .float kind key => compare_float kind.symm key.symm
  | .just _, .just _, .just inner => by rw [compare, (matched_of_compare inner).symm]
  | .newtype _, .newtype _, .newtype inner => by rw [compare, (matched_of_compare inner).symm]
  | .seq _, .seq _, .seq items => by rw [compare, compareItems_symm items]
  | .map _, .map _, .map entries => by rw [compare, compareEntries_symm entries]

theorem compareItems_symm : ∀ {a b : List Value}, compareItems a b = .eq → compareItems b a = .eq
  | [], [], _ => by rw [compareItems]
  | [], _ :: _, h | _ :: _, [], h => by simp [compareItems] at h
  | v :: vs, w :: ws, h => by
      rw [compareItems, Ordering.then_eq_eq] at h
      rw [compareItems, (matched_of_compare h.1).symm, compareItems_symm h.2]
      rfl

theorem compareEntries_symm : ∀ {a b : List (Value × Value)},
    compareEntries a b = .eq → compareEntries b a = .eq
  | [], [], _ => by rw [compareEntries]
  | [], _ :: _, h | _ :: _, [], h => by simp [compareEntries] at h
  | (k, v) :: vs, (l, w) :: ws, h => by
      rw [compareEntries, Ordering.then_eq_eq, Ordering.then_eq_eq] at h
      obtain ⟨hkey, hvalue, hrest⟩ := h
      rw [compareEntries, (matched_of_compare hkey).symm, (matched_of_compare hvalue).symm,
        compareEntries_symm hrest]
      rfl

end

mutual

theorem Matched.trans : ∀ {u v w : Value}, Matched u v → Matched v w → u.compare w = .eq
  | _, _, _, .self _, h | _, _, _, h, .self _ => h.compare
  | .float _, .float _, .float _, .float kind key, .float kind' key' =>
      compare_float (kind.trans kind') (key.trans key')
  | .just _, .just _, .just _, .just inner, .just inner' => by
      rw [compare, (matched_of_compare inner).trans (matched_of_compare inner')]
  | .newtype _, .newtype _, .newtype _, .newtype inner, .newtype inner' => by
      rw [compare, (matched_of_compare inner).trans (matched_of_compare inner')]
  | .seq _, .seq _, .seq _, .seq items, .seq items' => by
      rw [compare, compareItems_trans items items']
  | .map _, .map _, .map _, .map entries, .map entries' => by
      rw [compare, compareEntries_trans entries entries']

theorem compareItems_trans : ∀ {a b c : List Value},
    compareItems a b = .eq → compareItems b c = .eq → compareItems a c = .eq
  | [], [], _, _, h => h
  | [], _ :: _, _, h, _ | _ :: _, [], _, h, _ => by simp [compareItems] at h
  | _ :: _, _ :: _, [], _, h => by simp [compareItems] at h
  | u :: us, v :: vs, w :: ws, h, h' => by
      rw [compareItems, Ordering.then_eq_eq] at h h'
      rw [compareItems, (matched_of_compare h.1).trans (matched_of_compare h'.1),
        compareItems_trans h.2 h'.2]
      rfl

theorem compareEntries_trans : ∀ {a b c : List (Value × Value)},
    compareEntries a b = .eq → compareEntries b c = .eq → compareEntries a c = .eq
  | [], [], _, _, h => h
  | [], _ :: _, _, h, _ | _ :: _, [], _, h, _ => by simp [compareEntries] at h
  | _ :: _, _ :: _, [], _, h => by simp [compareEntries] at h
  | (_, _) :: _, (_, _) :: _, (_, _) :: _, h, h' => by
      rw [compareEntries, Ordering.then_eq_eq, Ordering.then_eq_eq] at h h'
      obtain ⟨hkey, hvalue, hrest⟩ := h
      obtain ⟨hkey', hvalue', hrest'⟩ := h'
      rw [compareEntries, (matched_of_compare hkey).trans (matched_of_compare hkey'),
        (matched_of_compare hvalue).trans (matched_of_compare hvalue'),
        compareEntries_trans hrest hrest']
      rfl

end

variable {u v w : Value}

theorem same_iff_compare : v.same w = true ↔ v.compare w = .eq := by
  rw [same, beq_iff_eq]

theorem same_symm (h : v.same w = true) : w.same v = true :=
  same_iff_compare.2 (matched_of_compare (same_iff_compare.1 h)).symm

theorem same_trans (h : u.same v = true) (h' : v.same w = true) : u.same w = true :=
  same_iff_compare.2 ((matched_of_compare (same_iff_compare.1 h)).trans
    (matched_of_compare (same_iff_compare.1 h')))

end Value
end SettingsTree
