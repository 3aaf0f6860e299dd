import CssTree.Grammar.Production
import CssTree.Proofs.Grammar.Logic
import CssTree.Proofs.Token.Settle

namespace CssTree.Grammar

/-- Every result of a step is one with `φ`. -/
def Yields {α : Type} (p : Parser α) (φ : α → Prop) : Prop := ∀ s, φ (p.run s).1

/-- Every result of a step that may fail is one with `φ`. -/
def Finds {α : Type} (p : Attempt α) (φ : α → Prop) : Prop := Yields p.run fun r => ∀ a ∈ r, φ a

variable {α β : Type} {φ : α → Prop} {ψ : β → Prop}

namespace Yields

theorem ret {a : α} (h : φ a) : Yields (pure a) φ := fun _ => h

theorem bind {p : Parser α} {f : α → Parser β} (hp : Yields p φ) (hf : ∀ a, φ a → Yields (f a) ψ) :
    Yields (p >>= f) ψ := fun s => hf _ (hp s) _

/-- A step whose result does not matter. -/
theorem skip {p : Parser α} {f : α → Parser β} (hf : ∀ a, Yields (f a) ψ) : Yields (p >>= f) ψ :=
  fun _ => hf _ _

theorem mono {p : Parser α} {φ' : α → Prop} (hp : Yields p φ) (h : ∀ a, φ a → φ' a) :
    Yields p φ' := fun s => h _ (hp s)

theorem ite {c : Prop} [Decidable c] {p q : Parser α} (hp : c → Yields p φ)
    (hq : ¬c → Yields q φ) : Yields (if c then p else q) φ := by
  split
  next h => exact hp h
  next h => exact hq h

theorem attempt {p : Attempt α} (hp : Finds p φ) :
    Yields (Grammar.attempt p) fun r => ∀ a ∈ r, φ a := by
  intro s
  rw [run_attempt]
  split
  · exact hp s
  · exact hp s

theorem eat (kind : TokenKind) : Yields (eat kind) fun o => ∀ t ∈ o, t.kind = kind := by
  intro s
  rw [eat_run]
  split
  next hkind =>
    have hsettle : (s.settle 0).settle 0 = s.settle 0 := by
      rw [State.settle, State.settle, Stream.settle_settle (Nat.le_refl 0)]
    have htake : ∀ r : State, r.take.1 = r.upcoming.nth 0 := by
      rintro ⟨taken, ⟨tokens, last⟩, place, guard, limit, arena, created⟩
      cases tokens <;> rfl
    rintro t ht
    obtain rfl : ((s.settle 0).settle 0).take.1 = t := Option.some.inj ht
    rw [hsettle, htake]
    exact hkind
  next => exact fun t ht => by cases ht

end Yields

namespace Finds

theorem ret {a : α} (h : φ a) : Finds (pure a) φ := fun _ b hb => by
  obtain rfl := Option.some.inj hb
  exact h

theorem fail : Finds (failure : Attempt α) φ := fun _ _ ha => by cases ha

theorem bind {p : Attempt α} {f : α → Attempt β} (hp : Finds p φ)
    (hf : ∀ a, φ a → Finds (f a) ψ) : Finds (p >>= f) ψ := by
  rw [Finds, OptionT.run_bind]
  refine Yields.bind hp fun r hr => ?_
  cases r with
  | none => exact fun _ _ hb => by cases hb
  | some a => exact hf a (hr a rfl)

theorem of_yields {p : Parser α} (hp : Yields p φ) : Finds (liftM p : Attempt α) φ := by
  intro s b hb
  obtain rfl := Option.some.inj hb
  exact hp s

/-- A step that cannot fail before one that can. -/
theorem call {p : Parser α} {f : α → Attempt β} (hp : Yields p φ)
    (hf : ∀ a, φ a → Finds (f a) ψ) : Finds ((liftM p : Attempt α) >>= f) ψ := Yields.bind hp hf

theorem skip {p : Parser α} {f : α → Attempt β} (hf : ∀ a, Finds (f a) ψ) :
    Finds ((liftM p : Attempt α) >>= f) ψ := Yields.skip hf

theorem ite {c : Prop} [Decidable c] {p q : Attempt α} (hp : c → Finds p φ)
    (hq : ¬c → Finds q φ) : Finds (if c then p else q) φ := by
  split
  next h => exact hp h
  next h => exact hq h

theorem require (kind : TokenKind) : Finds (require kind) fun t => t.kind = kind :=
  Yields.eat kind

end Finds

end CssTree.Grammar
