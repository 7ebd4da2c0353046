import Mathlib

/-! # Programs that make calls

A program has a result, or makes a call and goes on with the response. What a program may do is said of
its calls, each with the calls and responses before it, and of its result.
-/
namespace Syntrix.Lib

inductive Calls (Call : Type) (Response : Call → Type) (α : Type) : Type where
  | done (result : α)
  | call (c : Call) (next : Response c → Calls Call Response α)

namespace Calls

variable {Call : Type} {Response : Call → Type} {α β : Type}

def bind (f : α → Calls Call Response β) : Calls Call Response α → Calls Call Response β
  | .done a => f a
  | .call c next => .call c fun r => (next r).bind f

abbrev Seen (Call : Type) (Response : Call → Type) := List (Σ c : Call, Response c)

/-- Every call is proper after what was seen before it, and so is the result. -/
def Meets (proper : Seen Call Response → Call → Prop) (post : Seen Call Response → α → Prop) :
    Seen Call Response → Calls Call Response α → Prop
  | seen, .done a => post seen a
  | seen, .call c next => proper seen c ∧ ∀ r, (next r).Meets proper post (seen ++ [⟨c, r⟩])

variable {proper : Seen Call Response → Call → Prop} {post : Seen Call Response → β → Prop}

theorem Meets.bind {p : Calls Call Response α} {f : α → Calls Call Response β} {seen : Seen Call Response}
    (h : p.Meets proper (fun seen a => (f a).Meets proper post seen) seen) : (p.bind f).Meets proper post seen := by
  induction p generalizing seen with
  | done a => exact h
  | call c next ih => exact ⟨h.1, fun r => ih r (h.2 r)⟩

theorem Meets.mono {p : Calls Call Response β} {proper' : Seen Call Response → Call → Prop}
    {post' : Seen Call Response → β → Prop} (hProper : ∀ seen c, proper seen c → proper' seen c)
    (hPost : ∀ seen a, post seen a → post' seen a) {seen : Seen Call Response} (h : p.Meets proper post seen) :
    p.Meets proper' post' seen := by
  induction p generalizing seen with
  | done a => exact hPost _ _ h
  | call c next ih => exact ⟨hProper _ _ h.1, fun r => ih r (h.2 r)⟩

end Calls

end Syntrix.Lib
