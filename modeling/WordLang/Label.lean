/-!
# Generated labels

Labels that the compiler makes up are numbered separately for each kind of construct. All labels of one
construct share its number.
-/

namespace WordLang

/-- The next number of each kind; a kind not listed starts at zero. -/
structure LabelSupply where
  counters : List (String × Nat) := []

namespace LabelSupply

/-- The number that the next label of a kind gets. -/
def next (supply : LabelSupply) (kind : String) : Nat :=
  (supply.counters.lookup kind).getD 0

def fresh (supply : LabelSupply) (kind : String) : String × LabelSupply :=
  let number := supply.next kind
  let others := supply.counters.filter fun counter => counter.1 != kind
  ("_" ++ kind ++ toString number, ⟨(kind, number + 1) :: others⟩)

/-- New labels that share one number and differ in their endings. -/
def freshGroup (supply : LabelSupply) (kind : String) (endings : List String) :
    List String × LabelSupply :=
  let (base, supply) := supply.fresh kind
  (endings.map (base ++ ·), supply)

end LabelSupply

end WordLang
