/-!
# Machines that answer

A machine takes inputs one after another, answers each and goes on in a new state.
-/

namespace TraceMath

/-- What a machine does with an input: the state behind it, and the answer. -/
structure Machine (σ ι α : Type) where
  step : σ → ι → σ × α

namespace Machine

variable {σ ι α : Type} (M : Machine σ ι α)

/-- The answers to a list of inputs. -/
def answers (s : σ) : List ι → List α
  | [] => []
  | i :: rest =>
    let (s', answer) := M.step s i
    answer :: answers s' rest

end Machine

end TraceMath
