import SettingsTree.Value.Basic

/-!
# The order of values

Values compare by form first, then within the form: integers by size and then
numerically, text by code points, a missing optional value before a present one,
and sequences, bytes and maps entry by entry, where a proper beginning comes
first. Values count as equal exactly when they compare equal; so the two zeros
are equal, and what is no number equals itself.

Maps list their entries in ascending order of keys. Inserting under a key that
is already there keeps the key and replaces the value.
-/
namespace SettingsTree.Value

def rank : Value → Nat
  | .bool _ => 0
  | .int _ => 1
  | .float _ => 2
  | .char _ => 3
  | .str _ => 4
  | .unit => 5
  | .nothing | .just _ => 6
  | .newtype _ => 7
  | .seq _ => 8
  | .map _ => 9
  | .bytes _ => 10

mutual

def compare : Value → Value → Ordering
  | .bool a, .bool b => Ord.compare a b
  | .int a, .int b => (Ord.compare a.kind.rank b.kind.rank).then (Ord.compare a.val b.val)
  | .float a, .float b =>
      (Ord.compare a.kind.rank b.kind.rank).then (Ord.compare a.orderKey b.orderKey)
  | .char a, .char b => Ord.compare a b
  | .str a, .str b => Ord.compare a b
  | .unit, .unit => .eq
  | .nothing, .nothing => .eq
  | .nothing, .just _ => .lt
  | .just _, .nothing => .gt
  | .just a, .just b => compare a b
  | .newtype a, .newtype b => compare a b
  | .seq a, .seq b => compareItems a b
  | .map a, .map b => compareEntries a b
  | .bytes a, .bytes b => Ord.compare (a.map UInt8.toNat) (b.map UInt8.toNat)
  | a, b => Ord.compare a.rank b.rank

/-- Compares sequences item by item. -/
def compareItems : List Value → List Value → Ordering
  | [], [] => .eq
  | [], _ :: _ => .lt
  | _ :: _, [] => .gt
  | a :: as, b :: bs => (compare a b).then (compareItems as bs)

/-- Compares maps entry by entry, the key of an entry before its value. -/
def compareEntries : List (Value × Value) → List (Value × Value) → Ordering
  | [], [] => .eq
  | [], _ :: _ => .lt
  | _ :: _, [] => .gt
  | (k, v) :: as, (l, w) :: bs =>
      (compare k l).then ((compare v w).then (compareEntries as bs))

end

/-- Whether two values are equal in the order of values. -/
def same (a b : Value) : Bool :=
  a.compare b == .eq

/-- Writes an entry of a map: an equal key keeps its place and its own form and
takes the new value, and otherwise the entry comes before the first greater key. -/
def insertEntry (key value : Value) : List (Value × Value) → List (Value × Value)
  | [] => [(key, value)]
  | (k, v) :: rest =>
      match key.compare k with
      | .lt => (key, value) :: (k, v) :: rest
      | .eq => (k, value) :: rest
      | .gt => (k, v) :: insertEntry key value rest

/-- The map that results from writing the pairs one after the other. -/
def ofPairs (pairs : List (Value × Value)) : Value :=
  .map (pairs.foldl (fun entries (key, value) => insertEntry key value entries) [])

/-- The map with the given texts as keys. -/
def ofFields (fields : List (String × Value)) : Value :=
  ofPairs (fields.map fun (name, value) => (.str name, value))

def entry? (key : Value) : List (Value × Value) → Option Value
  | [] => none
  | (k, v) :: rest => if key.same k then some v else entry? key rest

end SettingsTree.Value
