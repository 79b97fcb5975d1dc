import Mathlib.Data.Bool.Basic

namespace Jiauliyan.Lockstep

variable {ε α β γ γ' α' β' : Type*}

inductive Both (R : α → β → Prop) : Except ε α → Except ε β → Prop
  | error (e : ε) : Both R (.error e) (.error e)
  | ok {a : α} {b : β} : R a b → Both R (.ok a) (.ok b)

def Same (R : α → β → Prop) (p : γ × α) (q : γ × β) : Prop := p.1 = q.1 ∧ R p.2 q.2

variable {R : α → β → Prop} {S : α' → β' → Prop} {x : Except ε α} {y : Except ε β}

theorem Both.mono (h : Both R x y) {R' : α → β → Prop} (hR : ∀ a b, R a b → R' a b) :
    Both R' x y := by
  cases h with
  | error e => exact .error e
  | ok hab => exact .ok (hR _ _ hab)

theorem Both.bind {k : α → Except ε α'} {l : β → Except ε β'} (h : Both R x y)
    (hk : ∀ a b, R a b → Both S (k a) (l b)) : Both S (x.bind k) (y.bind l) := by
  cases h with
  | error e => exact .error e
  | ok hab => exact hk _ _ hab

theorem Both.map {g : α → α'} {g' : β → β'} (h : Both R x y)
    (hg : ∀ a b, R a b → S (g a) (g' b)) : Both S (x.map g) (y.map g') := by
  cases h with
  | error e => exact .error e
  | ok hab => exact .ok (hg _ _ hab)

theorem Both.reply {p : Except ε (γ × α)} {q : Except ε (γ × β)} (h : Both (Same R) p q)
    (g : γ → γ') :
    Both (Same R) (p.map fun r => (g r.1, r.2)) (q.map fun r => (g r.1, r.2)) :=
  h.map fun _ _ hpq => ⟨congrArg g hpq.1, hpq.2⟩

end Jiauliyan.Lockstep
