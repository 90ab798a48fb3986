import Mathlib.Control.Monad.Writer

/-!
Computations that note what they use on the way. The value is what is computed, the uses
come along; what follows a step adds its uses behind those of the step.
-/
namespace DordOs.Lib

/-- A computation that notes uses of kind `ε`. -/
abbrev Traced (ε α : Type) : Type := Writer (List ε) α

/-- Notes one use. -/
def note {ε : Type} (e : ε) : Traced ε PUnit := tell [e]

namespace Traced

variable {ε α β : Type}

def value (x : Traced ε α) : α := (WriterT.run x).run.1

def uses (x : Traced ε α) : List ε := (WriterT.run x).run.2

@[simp] theorem value_pure (a : α) : value (pure a : Traced ε α) = a := rfl

@[simp] theorem uses_pure (a : α) : uses (pure a : Traced ε α) = [] := rfl

@[simp] theorem value_bind (x : Traced ε α) (f : α → Traced ε β) :
    value (x >>= f) = value (f x.value) := rfl

@[simp] theorem uses_bind (x : Traced ε α) (f : α → Traced ε β) :
    uses (x >>= f) = x.uses ++ uses (f x.value) := rfl

@[simp] theorem uses_note (e : ε) : uses (note e) = [e] := rfl

end Traced

end DordOs.Lib
