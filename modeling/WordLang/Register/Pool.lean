import WordLang.Register

/-!
# The register pool

The pool knows which general registers hold a value. It hands out the lowest free register of a class, so
equal requests always get equal answers, and it remembers which callee-saved registers it ever gave away:
those are the ones a function has to save.
-/

namespace WordLang

/-- A set of registers, one bit for each. -/
structure RegisterSet where
  bits : BitVec 14 := 0
deriving DecidableEq

namespace RegisterSet

def contains (s : RegisterSet) (r : Register) : Bool :=
  s.bits.getLsbD r.index

def insert (s : RegisterSet) (r : Register) : RegisterSet :=
  ⟨s.bits ||| BitVec.twoPow 14 r.index⟩

def erase (s : RegisterSet) (r : Register) : RegisterSet :=
  ⟨s.bits &&& ~~~ BitVec.twoPow 14 r.index⟩

@[simp] theorem contains_empty (r : Register) : contains {} r = false := by
  simp [contains]

@[simp] theorem contains_insert (s : RegisterSet) (r q : Register) :
    (s.insert r).contains q = (decide (q = r) || s.contains q) := by
  have hq := q.index_lt
  by_cases h : q = r
  · subst h
    simp [contains, insert, hq]
  · have hi : r.index ≠ q.index := fun e => h (Register.index_injective e.symm)
    simp [contains, insert, BitVec.getLsbD_twoPow, hi, h]

@[simp] theorem contains_erase (s : RegisterSet) (r q : Register) :
    (s.erase r).contains q = (!decide (q = r) && s.contains q) := by
  have hq := q.index_lt
  by_cases h : q = r
  · subst h
    simp [contains, erase, hq]
  · have hi : r.index ≠ q.index := fun e => h (Register.index_injective e.symm)
    simp [contains, erase, h, hq, hi.symm]

end RegisterSet

/-- What to do about freeing a register that is free already. -/
inductive FreePolicy where
  | strict
  | lenient
deriving DecidableEq

inductive PoolError where
  | exhausted (requested : RegisterClass)
  | alreadyHeld (r : Register)
  | notPooled (r : Register)
  | freedTwice (r : Register)
  | readAfterFree (r : Register)
deriving DecidableEq

def PoolError.message : PoolError → String
  | exhausted requested => s!"no free {requested.text} register left"
  | alreadyHeld r => s!"register {r.text} is already in use"
  | notPooled r => s!"register {r.text} is not managed by the allocator"
  | freedTwice r => s!"register {r.text} freed twice"
  | readAfterFree r => s!"return value read from {r.text} after it was freed"

/-- The registers that hold a value, and those that ever did. -/
structure Pool where
  policy : FreePolicy := .strict
  held : RegisterSet := {}
  touched : RegisterSet := {}
deriving DecidableEq

namespace Pool

def holds (pool : Pool) (r : Register) : Bool :=
  pool.held.contains r

def take (pool : Pool) (r : Register) : Pool :=
  { pool with held := pool.held.insert r, touched := pool.touched.insert r }

/-- Hands out the lowest free register of a class. -/
def allocate (pool : Pool) (wanted : RegisterClass) : Except PoolError (Register × Pool) :=
  match wanted.members.find? fun r => !pool.holds r with
  | some r => .ok (r, pool.take r)
  | none => .error (.exhausted wanted)

def reserve (pool : Pool) (r : Register) : Except PoolError Pool :=
  if r ∉ Register.general then .error (.notPooled r)
  else if pool.holds r then .error (.alreadyHeld r)
  else .ok (pool.take r)

def free (pool : Pool) (r : Register) : Except PoolError Pool :=
  if r ∉ Register.general then .error (.notPooled r)
  else if !pool.holds r && pool.policy = .strict then .error (.freedTwice r)
  else .ok { pool with held := pool.held.erase r }

def read (pool : Pool) (r : Register) : Except PoolError Register :=
  if pool.holds r then .ok r else .error (.readAfterFree r)

def live (pool : Pool) : List Register :=
  Register.general.filter pool.holds

/-- The callee-saved registers ever handed out, in ascending order. -/
def saved (pool : Pool) : List Register :=
  RegisterClass.calleeSaved.members.filter pool.touched.contains

end Pool

end WordLang
