import Fletcher.Protoc.RowClass
import Fletcher.Protoc.Rules

/-!
# Fuel does not matter

The classifier, the field walk and the schemas are recursions over message references, with
fuel. None of them changes its answer when it is given more, so what one message's field
classifies to, which fields it has and what its schema is can be spoken of without it.
-/

namespace Fletcher.Protoc

open Lib Arrow Fletcher.Core

variable {n : Nat} {pool : Pool n}

theorem flattenWalk_below : ∀ (k depth : Nat) (m : Fin n),
    Below (flattenWalk pool k depth m) (flattenWalk pool (k + 1) depth m)
  | 0, _, _ => below_error
  | k + 1, depth, m => by
    have ih := flattenWalk_below k
    unfold flattenWalk
    split
    · split
      · split
        · split
          · exact ih _ _
          · split
            · exact ih _ _
            · exact .refl _
        · exact .refl _
      · exact .refl _
    · exact .refl _

theorem Step.run_below {build build' : FieldDescriptor n → Gen (IrNode n)} {f : FieldDescriptor n}
    (h : ∀ f, Below (build f) (build' f)) (s : Step n) :
    Below (s.run pool build f) (s.run pool build' f) := by
  cases s with
  | done node => exact .refl _
  | struct facts m wrap =>
    exact Below.bind (Below.bind (.mapM h) fun _ => .refl _) fun _ => .refl _
  | inner g => exact Below.bind (h g) fun _ => .refl _
  | fail => exact .refl _

theorem buildFieldIr_below : ∀ (k : Nat) (f : FieldDescriptor n),
    Below (buildFieldIr pool k f) (buildFieldIr pool (k + 1) f)
  | 0, _ => below_error
  | k + 1, f => by
    obtain ⟨r, -, hr⟩ := takes pool f
    rw [hr, hr]
    cases r with
    | step s => exact s.run_below (buildFieldIr_below k)
    | chain w =>
      exact Below.bind (flattenWalk_below _ 0 w) fun leaf => Step.run_below (buildFieldIr_below k) _

end Fletcher.Protoc
