import CssTree.Proofs.Grammar.Logic
import CssTree.Proofs.Twin.Basic

namespace CssTree.Grammar

/-- From states related by `I`, two steps lead to results and states related by `Q`, unless the
result of the first one is as `L` says. -/
def Side {α : Type} (L : α → Prop) (I : State → State → Prop) (p p' : Parser α)
    (Q : α → α → State → State → Prop) : Prop :=
  ∀ s s', I s s' → L (p.run s).1 ∨ Q (p.run s).1 (p'.run s').1 (p.run s).2 (p'.run s').2

/-- Both results are there and related by `Q`, or none is and the states are related by `F`. -/
def Both {α : Type} (Q : α → α → State → State → Prop) (F : State → State → Prop) :
    Option α → Option α → State → State → Prop
  | some a, some a' => Q a a'
  | none, none => F
  | _, _ => fun _ _ => False

/-- The same for steps that can fail: either both do or none. -/
def Tandem {α : Type} (L : α → Prop) (I : State → State → Prop) (p p' : Attempt α)
    (Q : α → α → State → State → Prop) (F : State → State → Prop) : Prop :=
  Side (fun r => ∃ a ∈ r, L a) I p.run p'.run (Both Q F)

/-- No result is lost. -/
def Never {α : Type} : α → Prop := fun _ => False

theorem not_exists_never {α : Type} (φ : α → Prop) : ¬∃ a, φ a ∧ Never a := by
  rintro ⟨a, -, h⟩
  exact h

theorem never_child {id : NodeId} {kind : NodeKind} {span : Span} {es : List Element} {m : Node}
    (_ : .node m ∈ es) (h : Never m) : Never (Node.mk id kind span es) := h

theorem colon_folds : decide (some TokenKind.colon = some TokenKind.colon) = true := rfl

theorem close_folds (h : decide (some TokenKind.closeComment = some TokenKind.colon) = true)
    (b : Option TokenKind) : decide (b = some TokenKind.colon) = true := by simp at h

section Rules

variable {α β : Type} {I J F : State → State → Prop} {L : β → Prop}
  {Q : β → β → State → State → Prop}

namespace Side

theorem ret {a a' : β} (h : ∀ s s', I s s' → Q a a' s s') :
    Side L I (pure a) (pure a') Q := fun s s' hs => Or.inr (h s s' hs)

theorem pre {p p' : Parser β} (h : ∀ s s', I s s' → J s s') (hp : Side L J p p' Q) :
    Side L I p p' Q := fun s s' hs => hp s s' (h s s' hs)

theorem post {p p' : Parser β} {R : β → β → State → State → Prop} (hp : Side L I p p' R)
    (h : ∀ a a' s s', R a a' s s' → Q a a' s s') : Side L I p p' Q :=
  fun s s' hs => (hp s s' hs).imp_right (h _ _ _ _)

/-- A first step whose result may be lost; then so is the result of all. -/
theorem bind_lost {K : α → Prop} {p p' : Parser α} {f g : α → Parser β}
    {R : α → α → State → State → Prop} (hp : Side K I p p' R)
    (hlost : ∀ a, K a → ∀ s, L ((f a).run s).1) (hf : ∀ a a', Side L (R a a') (f a) (g a') Q) :
    Side L I (p >>= f) (p' >>= g) Q := by
  intro s s' hs
  rcases hp s s' hs with hk | hr
  · exact Or.inl (hlost _ hk _)
  · exact hf _ _ _ _ hr

theorem bind {p p' : Parser α} {f g : α → Parser β} {R : α → α → State → State → Prop}
    (hp : Side Never I p p' R) (hf : ∀ a a', Side L (R a a') (f a) (g a') Q) :
    Side L I (p >>= f) (p' >>= g) Q := bind_lost hp (fun _ h => h.elim) hf

/-- What relates the results of a step is known from then on. -/
theorem seq {p p' : Parser α} {f g : α → Parser β} {φ : α → α → Prop}
    (hp : Side Never I p p' fun a a' s s' => J s s' ∧ φ a a')
    (hf : ∀ a a', φ a a' → Side L J (f a) (g a') Q) : Side L I (p >>= f) (p' >>= g) Q :=
  bind hp fun a a' s s' hs => hf a a' hs.2 s s' hs.1

theorem seq_lost {K : α → Prop} {p p' : Parser α} {f g : α → Parser β} {φ : α → α → Prop}
    (hp : Side K I p p' fun a a' s s' => J s s' ∧ φ a a')
    (hlost : ∀ a, K a → ∀ s, L ((f a).run s).1)
    (hf : ∀ a a', φ a a' → Side L J (f a) (g a') Q) : Side L I (p >>= f) (p' >>= g) Q :=
  bind_lost hp hlost fun a a' s s' hs => hf a a' hs.2 s s' hs.1

/-- A step with results that are known. -/
theorem known {p p' : Parser α} {a a' : α} {f g : α → Parser β}
    (hp : ∀ s s', I s s' → (p.run s).1 = a ∧ (p'.run s').1 = a' ∧ J (p.run s).2 (p'.run s').2)
    (hf : Side L J (f a) (g a') Q) : Side L I (p >>= f) (p' >>= g) Q := by
  intro s s' hs
  obtain ⟨ha, ha', hj⟩ := hp s s' hs
  have hrun := hf _ _ hj
  rw [← ha, ← ha'] at hrun
  exact hrun

theorem weaken {p p' : Parser β} (hp : Side Never I p p' Q) : Side L I p p' Q :=
  fun s s' hs => Or.inr ((hp s s' hs).resolve_left id)

end Side

namespace Tandem

theorem ret {a a' : β} (h : ∀ s s', I s s' → Q a a' s s') :
    Tandem L I (pure a) (pure a') Q F := fun s s' hs => Or.inr (h s s' hs)

theorem fail (h : ∀ s s', I s s' → F s s') : Tandem L I failure failure Q F :=
  fun s s' hs => Or.inr (h s s' hs)

theorem pre {p p' : Attempt β} (h : ∀ s s', I s s' → J s s') (hp : Tandem L J p p' Q F) :
    Tandem L I p p' Q F := Side.pre h hp

theorem post {p p' : Attempt β} {R : β → β → State → State → Prop} {G : State → State → Prop}
    (hp : Tandem L I p p' R G) (h : ∀ a a' s s', R a a' s s' → Q a a' s s')
    (hfail : ∀ s s', G s s' → F s s') : Tandem L I p p' Q F := by
  refine Side.post hp fun r r' s s' hr => ?_
  cases r <;> cases r' <;> first | exact hr | exact h _ _ _ _ hr | exact hfail _ _ hr

theorem bind_lost {K : α → Prop} {p p' : Attempt α} {f g : α → Attempt β}
    {R : α → α → State → State → Prop} (hp : Tandem K I p p' R F)
    (hlost : ∀ a, K a → ∀ s, ∃ b ∈ ((f a).run.run s).1, L b)
    (hf : ∀ a a', Tandem L (R a a') (f a) (g a') Q F) :
    Tandem L I (p >>= f) (p' >>= g) Q F := by
  rw [Tandem, OptionT.run_bind, OptionT.run_bind]
  refine Side.bind_lost hp ?_ fun r r' => ?_
  · rintro r ⟨a, ha, hk⟩ s
    obtain rfl : r = some a := ha
    exact hlost a hk s
  · cases r with
    | none =>
      cases r' with
      | none => exact fun s s' hs => Or.inr hs
      | some a' => exact fun s s' hs => hs.elim
    | some a =>
      cases r' with
      | none => exact fun s s' hs => hs.elim
      | some a' => exact hf a a'

theorem bind {p p' : Attempt α} {f g : α → Attempt β} {R : α → α → State → State → Prop}
    (hp : Tandem Never I p p' R F) (hf : ∀ a a', Tandem L (R a a') (f a) (g a') Q F) :
    Tandem L I (p >>= f) (p' >>= g) Q F := bind_lost hp (fun _ h => h.elim) hf

theorem seq {p p' : Attempt α} {f g : α → Attempt β} {φ : α → α → Prop}
    (hp : Tandem Never I p p' (fun a a' s s' => J s s' ∧ φ a a') F)
    (hf : ∀ a a', φ a a' → Tandem L J (f a) (g a') Q F) : Tandem L I (p >>= f) (p' >>= g) Q F :=
  bind hp fun a a' s s' hs => hf a a' hs.2 s s' hs.1

theorem seq_lost {K : α → Prop} {p p' : Attempt α} {f g : α → Attempt β} {φ : α → α → Prop}
    (hp : Tandem K I p p' (fun a a' s s' => J s s' ∧ φ a a') F)
    (hlost : ∀ a, K a → ∀ s, ∃ b ∈ ((f a).run.run s).1, L b)
    (hf : ∀ a a', φ a a' → Tandem L J (f a) (g a') Q F) : Tandem L I (p >>= f) (p' >>= g) Q F :=
  bind_lost hp hlost fun a a' s s' hs => hf a a' hs.2 s s' hs.1

theorem lift {p p' : Parser β} (hp : Side L I p p' Q) :
    Tandem L I (OptionT.lift p) (OptionT.lift p') Q F := by
  intro s s' hs
  exact (hp s s' hs).imp (fun hl => ⟨_, rfl, hl⟩) id

theorem run {p p' : Parser β} (hp : Side L I p p' Q) :
    Tandem L I (liftM p : Attempt β) (liftM p' : Attempt β) Q F := lift hp

/-- A step that cannot fail before others that can. -/
theorem call_bind {p p' : Parser α} {f g : α → Attempt β} {R : α → α → State → State → Prop}
    (hp : Side Never I p p' R) (hf : ∀ a a', Tandem L (R a a') (f a) (g a') Q F) :
    Tandem L I ((liftM p : Attempt α) >>= f) ((liftM p' : Attempt α) >>= g) Q F :=
  Side.bind hp hf

theorem call {p p' : Parser α} {f g : α → Attempt β} {φ : α → α → Prop}
    (hp : Side Never I p p' fun a a' s s' => J s s' ∧ φ a a')
    (hf : ∀ a a', φ a a' → Tandem L J (f a) (g a') Q F) :
    Tandem L I ((liftM p : Attempt α) >>= f) ((liftM p' : Attempt α) >>= g) Q F :=
  Side.seq hp hf

theorem weaken {p p' : Attempt β} (hp : Tandem Never I p p' Q F) : Tandem L I p p' Q F := by
  intro s s' hs
  exact Or.inr ((hp s s' hs).resolve_left (not_exists_never _))

end Tandem

end Rules

/-- Two runs stand at the same place of their texts, with at most `m` and `m'` tokens to come; the
next ones are `ts` and `ts'`. -/
structure Twins (P : Pairing) (m m' : Nat) (ts ts' : List Token) (s s' : State) : Prop where
  left : Poised P.folds true m ts s
  right : Poised P.folds P.comments m' ts' s'
  count : s.taken.length = s'.taken.length
  known : ts.length = ts'.length
  guard : s.guard = s'.guard
  limit : s.limit = s'.limit
  paired :
    P.Match (s.whole.foldBehind P.folds none).toList (s'.whole.foldBehind P.folds none).toList

variable {P : Pairing} {m m' : Nat} {ts ts' : List Token} {t t' : Token} {s s' : State}

namespace Twins

theorem weaken {us us' : List Token} (h : Twins P m m' ts ts' s s') (hus : us <+: ts)
    (hus' : us' <+: ts') (hlength : us.length = us'.length) : Twins P m m' us us' s s' :=
  ⟨h.left.weaken hus, h.right.weaken hus', h.count, hlength, h.guard, h.limit, h.paired⟩

theorem nil (h : Twins P m m' ts ts' s s') : Twins P m m' [] [] s s' :=
  h.weaken List.nil_prefix List.nil_prefix rfl

theorem mono {k k' : Nat} (h : Twins P m m' ts ts' s s') (hk : m ≤ k) (hk' : m' ≤ k') :
    Twins P k k' ts ts' s s' :=
  ⟨h.left.mono hk, h.right.mono hk', h.count, h.known, h.guard, h.limit, h.paired⟩

/-- As many tokens to come as there are. -/
theorem exact (h : Twins P m m' ts ts' s s') :
    Twins P s.upcoming.length s'.upcoming.length ts ts' s s' :=
  ⟨⟨h.left.sound, h.left.flat, h.left.plain, h.left.stable, h.left.starts, Nat.le_refl _⟩,
    ⟨h.right.sound, h.right.flat, h.right.plain, h.right.stable, h.right.starts, Nat.le_refl _⟩,
    h.count, h.known, h.guard, h.limit, h.paired⟩

theorem split (h : Twins P m m' ts ts' s s') :
    P.Match (s.taken.reverse ++ (s.upcoming.foldBehind P.folds s.behind).toList)
      (s'.taken.reverse ++ (s'.upcoming.foldBehind P.folds s'.behind).toList) := by
  have hpaired := h.paired
  rw [h.left.whole_folded, h.right.whole_folded, Stream.toList_prepend,
    Stream.toList_prepend] at hpaired
  exact hpaired

theorem count_reverse (h : Twins P m m' ts ts' s s') :
    s.taken.reverse.length = s'.taken.reverse.length := by
  rw [List.length_reverse, List.length_reverse, h.count]

theorem settle (h : Twins P m m' ts ts' s s') (n : Nat) :
    Twins P m m' ts ts' (s.settle n) (s'.settle n) := by
  refine ⟨h.left.settle n, h.right.settle n, h.count, h.known, h.guard, h.limit, ?_⟩
  have hpaired := P.settle n h.split h.count_reverse
  rw [← Stream.foldBehind_settle P.folds_close h.left.flat_upcoming,
    ← Stream.foldBehind_settle P.folds_close h.right.flat_upcoming] at hpaired
  rw [(h.left.settle n).whole_folded, (h.right.settle n).whole_folded, Stream.toList_prepend,
    Stream.toList_prepend]
  exact hpaired

theorem bare_taken (h : Twins P m m' ts ts' s s') :
    s.taken.reverse.map Token.bare = s'.taken.reverse.map Token.bare := by
  have hbare := P.bare h.split
  rw [List.map_append, List.map_append] at hbare
  exact (List.append_inj hbare (by simp [h.count])).1

theorem behind_eq (h : Twins P m m' ts ts' s s') : s.behind = s'.behind :=
  Stream.kindAfter_of_bare h.bare_taken

/-- Tokens that both runs have looked at are the same but for their trivia. -/
theorem bare_nth (h : Twins P m m' ts ts' s s') {n : Nat} (hs : s.upcoming.Settled n)
    (hs' : s'.upcoming.Settled n) : (s.upcoming.nth n).bare = (s'.upcoming.nth n).bare := by
  have hbare := P.bare h.split
  rw [List.map_append, List.map_append, h.bare_taken] at hbare
  have hnth := Stream.bare_nth (List.append_cancel_left hbare) n
  rwa [Stream.foldBehind_nth hs, Stream.foldBehind_nth hs'] at hnth

theorem bare_head (h : Twins P m m' (t :: ts) (t' :: ts') s s') : t.bare = t'.bare := by
  obtain ⟨us, hus⟩ := h.left.tokens
  obtain ⟨us', hus'⟩ := h.right.tokens
  have ht := h.left.starts.settled t List.mem_cons_self
  have ht' := h.right.starts.settled t' List.mem_cons_self
  have hbare := h.bare_nth (n := 0) (by simpa [Stream.Settled, hus] using ht)
    (by simpa [Stream.Settled, hus'] using ht')
  simpa [Stream.nth, hus, hus'] using hbare

theorem take (h : Twins P m m' (t :: ts) (t' :: ts') s s') :
    Twins P (m - 1) (m' - 1) ts ts' s.take.2 s'.take.2 := by
  obtain ⟨us, hus⟩ := h.left.tokens
  obtain ⟨us', hus'⟩ := h.right.tokens
  obtain ⟨hleft, -, htaken⟩ := h.left.take
  obtain ⟨hright, -, htaken'⟩ := h.right.take
  refine ⟨hleft, hright, ?_, Nat.succ.inj h.known, ?_, ?_, ?_⟩
  · rw [htaken, htaken', List.length_cons, List.length_cons, h.count]
  · rw [s.take_guard.1, s'.take_guard.1, h.guard]
  · rw [s.take_guard.2, s'.take_guard.2, h.limit]
  · rw [Poised.whole_take hus, Poised.whole_take hus']
    exact h.paired

/-- Whether two known tokens touch is the same on both sides. -/
theorem touch {ws ws' vs vs' : List Token} {u u' : Token}
    (h : Twins P m m' (ws ++ t :: u :: vs) (ws' ++ t' :: u' :: vs') s s')
    (hws : ws.length = ws'.length) : t.touches u = t'.touches u' := by
  obtain ⟨xs, hxs⟩ := (h.left.starts.foldBehind (q := P.folds) (b := s.behind)).next
  obtain ⟨xs', hxs'⟩ := (h.right.starts.foldBehind (q := P.folds) (b := s'.behind)).next
  have hsplit := h.split
  have hlist : ∀ {ys zs us : List Token} {x y : Token} {r : Stream},
      ys ++ x :: y :: zs ++ us = r.tokens →
        ∀ ks : List Token, ks ++ r.toList = (ks ++ ys) ++ x :: y :: (zs ++ us ++ [r.last]) := by
    intro ys zs us x y r hr ks
    simp [Stream.toList, ← hr]
  rw [hlist hxs, hlist hxs'] at hsplit
  refine P.touch hsplit ?_
  simp [hws, h.count]

theorem setGuard {guard guard' : Guard} {refused refused' : List DepthError}
    (h : Twins P m m' ts ts' s s') (hguard : guard = guard') :
    Twins P m m' ts ts' { s with guard := guard, refused := refused }
      { s' with guard := guard', refused := refused' } :=
  ⟨h.left.setGuard guard refused, h.right.setGuard guard' refused', h.count, h.known, hguard, h.limit, h.paired⟩

theorem node (h : Twins P m m' ts ts' s s') (kind : NodeKind) (es es' : List Element) :
    Twins P m m' ts ts' ((Grammar.node kind es).run s).2 ((Grammar.node kind es').run s').2 :=
  ⟨h.left.node kind es, h.right.node kind es', h.count, h.known, h.guard, h.limit, h.paired⟩

theorem rewind {r r' : State} {k k' : Nat} (h : Twins P m m' ts ts' s s') (hlost : Lost s r)
    (hlost' : Lost s' r') (hr : Twins P k k' [] [] r r') :
    Twins P m m' ts ts' (s.rewind r) (s'.rewind r') := by
  obtain ⟨es, htook⟩ := hlost
  obtain ⟨es', htook'⟩ := hlost'
  obtain ⟨hleft, hwhole⟩ := hr.left.rewind h.left htook
  obtain ⟨hright, hwhole'⟩ := hr.right.rewind h.right htook'
  refine ⟨hleft, hright, h.count, h.known, h.guard, h.limit, ?_⟩
  rw [hwhole, hwhole']
  exact hr.paired

/-- The first run is at the end of its text; then so is the second behind the comments. -/
theorem left_end (h : Twins P 0 m' [] [] s s') : s.upcoming.tokens = [] ∧
    Twins P 0 m' [] [] s (s'.settle 0) ∧ ((s'.settle 0).upcoming.nth 0).kind = .eof := by
  have hnil := h.left.spent
  have hstep := h.settle 0
  rw [State.settle_of_nil hnil] at hstep
  refine ⟨hnil, hstep, ?_⟩
  have hbare := hstep.bare_nth (n := 0) (Stream.settled_nil hnil) (Stream.settled_settle 0 _)
  rw [← Token.kind_of_bare hbare]
  simpa [Stream.nth, hnil] using h.left.sound.upcoming.last_kind

theorem right_end (h : Twins P m 0 [] [] s s') : s'.upcoming.tokens = [] ∧
    Twins P m 0 [] [] (s.settle 0) s' ∧ ((s.settle 0).upcoming.nth 0).kind = .eof := by
  have hnil := h.right.spent
  have hstep := h.settle 0
  rw [State.settle_of_nil hnil] at hstep
  refine ⟨hnil, hstep, ?_⟩
  have hbare := hstep.bare_nth (n := 0) (Stream.settled_settle 0 _) (Stream.settled_nil hnil)
  rw [Token.kind_of_bare hbare]
  simpa [Stream.nth, hnil] using h.right.sound.upcoming.last_kind

end Twins

section Steps

variable {α β : Type} {L : β → Prop} {Q : β → β → State → State → Prop}

/-- The token after others that are known is looked at: the end of the text, or one more token
that is known then. -/
theorem Side.nth_end (ts ts' : List Token) {f g : Token → Parser β}
    (hlast : ∀ t t' : Token, t.bare = t'.bare → t.kind = .eof → Side L
      (fun s s' => Twins P m m' ts ts' s s' ∧ s.upcoming.Settled ts.length ∧
        s'.upcoming.Settled ts.length) (f t) (g t') Q)
    (hnext : ∀ t t' : Token, t.bare = t'.bare → t.kind ≠ .eof →
      Side L (Twins P m m' (ts ++ [t]) (ts' ++ [t'])) (f t) (g t') Q) :
    Side L (Twins P m m' ts ts') (Grammar.nth ts.length >>= f) (Grammar.nth ts.length >>= g) Q := by
  intro s s' h
  have hstep := h.settle ts.length
  have hbare := hstep.bare_nth (n := ts.length) (Stream.settled_settle _ _)
    (Stream.settled_settle _ _)
  have hkind := Token.kind_of_bare hbare
  by_cases heof : ((s.settle ts.length).upcoming.nth ts.length).kind = .eof
  · exact hlast _ _ hbare heof _ _
      ⟨hstep, Stream.settled_settle _ _, Stream.settled_settle _ _⟩
  · refine hnext _ _ hbare heof _ _ ⟨⟨hstep.left.sound, hstep.left.flat, hstep.left.plain,
      hstep.left.stable, ?_, hstep.left.bound⟩, ⟨hstep.right.sound, hstep.right.flat,
      hstep.right.plain, hstep.right.stable, ?_, hstep.right.bound⟩, hstep.count,
      by simp [h.known], hstep.guard, hstep.limit, hstep.paired⟩
    · exact h.left.starts.settle_nth hstep.left.sound.upcoming.last_kind heof
    · rw [hkind] at heof
      rw [h.known] at heof ⊢
      exact h.right.starts.settle_nth (h.known ▸ hstep.right.sound.upcoming.last_kind) heof

theorem Side.nth (ts ts' : List Token) {f g : Token → Parser β}
    (hlast : ∀ t t' : Token, t.bare = t'.bare → t.kind = .eof →
      Side L (Twins P m m' ts ts') (f t) (g t') Q)
    (hnext : ∀ t t' : Token, t.bare = t'.bare → t.kind ≠ .eof →
      Side L (Twins P m m' (ts ++ [t]) (ts' ++ [t'])) (f t) (g t') Q) :
    Side L (Twins P m m' ts ts') (Grammar.nth ts.length >>= f) (Grammar.nth ts.length >>= g) Q :=
  Side.nth_end ts ts' (fun t t' hbare heof => (hlast t t' hbare heof).pre fun _ _ h => h.1) hnext

theorem Side.peek {f g : Token → Parser β}
    (hlast : ∀ t t' : Token, t.bare = t'.bare → t.kind = .eof →
      Side L (Twins P m m' [] []) (f t) (g t') Q)
    (hnext : ∀ t t' : Token, t.bare = t'.bare → t.kind ≠ .eof →
      Side L (Twins P m m' [t] [t']) (f t) (g t') Q) :
    Side L (Twins P m m' [] []) (Grammar.peek >>= f) (Grammar.peek >>= g) Q :=
  Side.nth [] [] hlast hnext

theorem Side.peekKind {f g : TokenKind → Parser β}
    (hlast : Side L (Twins P m m' [] []) (f .eof) (g .eof) Q)
    (hnext : ∀ t t' : Token, t.bare = t'.bare → t.kind ≠ .eof →
      Side L (Twins P m m' [t] [t']) (f t.kind) (g t.kind) Q) :
    Side L (Twins P m m' [] []) (Grammar.peekKind >>= f) (Grammar.peekKind >>= g) Q := by
  refine Side.peek (f := fun t => f t.kind) (g := fun t => g t.kind) ?_ ?_
  · intro t t' hbare hkind
    rw [← Token.kind_of_bare hbare, hkind]
    exact hlast
  · intro t t' hbare hkind
    rw [← Token.kind_of_bare hbare]
    exact hnext t t' hbare hkind

/-- Known tokens are looked at once more. -/
theorem Side.nth_known (ts ts' : List Token) {f g : Token → Parser β} {n : Nat}
    (hn : n < ts.length) (hn' : n < ts'.length)
    (hf : Side L (Twins P m m' ts ts') (f ts[n]) (g ts'[n]) Q) :
    Side L (Twins P m m' ts ts') (Grammar.nth n >>= f) (Grammar.nth n >>= g) Q := by
  refine Side.known (fun s s' h => ?_) hf
  have hstate : s.settle n = s := by rw [State.settle, h.left.starts.settle_eq hn]
  have hstate' : s'.settle n = s' := by rw [State.settle, h.right.starts.settle_eq hn']
  change (s.settle n).upcoming.nth n = ts[n] ∧ (s'.settle n).upcoming.nth n = ts'[n] ∧
    Twins P m m' ts ts' (s.settle n) (s'.settle n)
  rw [hstate, hstate']
  exact ⟨h.left.starts.nth hn, h.right.starts.nth hn', h⟩

theorem Side.peek_known {f g : Token → Parser β}
    (hf : Side L (Twins P m m' (t :: ts) (t' :: ts')) (f t) (g t') Q) :
    Side L (Twins P m m' (t :: ts) (t' :: ts')) (Grammar.peek >>= f) (Grammar.peek >>= g) Q :=
  Side.nth_known (t :: ts) (t' :: ts') (Nat.zero_lt_succ _) (Nat.zero_lt_succ _) hf

theorem Side.of_known {p p' : Parser β}
    (h : t.bare = t'.bare → t.kind ≠ .eof → 0 < m → 0 < m' →
      Side L (Twins P m m' (t :: ts) (t' :: ts')) p p' Q) :
    Side L (Twins P m m' (t :: ts) (t' :: ts')) p p' Q :=
  fun s s' hs => h hs.bare_head hs.left.kind_ne_eof hs.left.pos hs.right.pos s s' hs

theorem Side.peekKind_known {f g : TokenKind → Parser β}
    (hf : Side L (Twins P m m' (t :: ts) (t' :: ts')) (f t.kind) (g t.kind) Q) :
    Side L (Twins P m m' (t :: ts) (t' :: ts')) (Grammar.peekKind >>= f) (Grammar.peekKind >>= g)
      Q := by
  refine Side.of_known fun hbare _ _ _ => ?_
  refine Side.peek_known (f := fun t => f t.kind) (g := fun t => g t.kind) ?_
  rw [← Token.kind_of_bare hbare]
  exact hf

/-- The next token is taken and is the last one taken then. -/
theorem Side.bump_taken {f g : Token → Parser β}
    (hf : Side L (fun s s' => Twins P (m - 1) (m' - 1) ts ts' s s' ∧
      (∃ us, s.taken = t :: us) ∧ ∃ us, s'.taken = t' :: us) (f t) (g t') Q) :
    Side L (Twins P m m' (t :: ts) (t' :: ts')) (Grammar.bump >>= f) (Grammar.bump >>= g) Q := by
  refine Side.known (fun s s' h => ?_) hf
  have hstate : s.settle 0 = s := by rw [State.settle, h.left.starts.settle_eq (by simp)]
  have hstate' : s'.settle 0 = s' := by rw [State.settle, h.right.starts.settle_eq (by simp)]
  change (s.settle 0).take.1 = t ∧ (s'.settle 0).take.1 = t' ∧
    Twins P (m - 1) (m' - 1) ts ts' (s.settle 0).take.2 (s'.settle 0).take.2 ∧
      (∃ us, (s.settle 0).take.2.taken = t :: us) ∧ ∃ us, (s'.settle 0).take.2.taken = t' :: us
  rw [hstate, hstate']
  obtain ⟨-, hfirst, htaken⟩ := h.left.take
  obtain ⟨-, hfirst', htaken'⟩ := h.right.take
  exact ⟨hfirst, hfirst', h.take, ⟨_, htaken⟩, ⟨_, htaken'⟩⟩

/-- The next token is taken; there are fewer to come then. -/
theorem Side.bump_shorter {f g : Token → Parser β}
    (hf : Side L (Twins P (m - 1) (m' - 1) ts ts') (f t) (g t') Q) :
    Side L (Twins P m m' (t :: ts) (t' :: ts')) (Grammar.bump >>= f) (Grammar.bump >>= g) Q :=
  Side.bump_taken (hf.pre fun _ _ h => h.1)

theorem Side.bump {f g : Token → Parser β} (hf : Side L (Twins P m m' ts ts') (f t) (g t') Q) :
    Side L (Twins P m m' (t :: ts) (t' :: ts')) (Grammar.bump >>= f) (Grammar.bump >>= g) Q :=
  Side.bump_shorter (hf.pre fun _ _ h => h.mono (Nat.sub_le m 1) (Nat.sub_le m' 1))

/-- Known tokens need not be remembered. -/
theorem Side.forget {p p' : Parser β} (hp : Side L (Twins P m m' [] []) p p' Q) :
    Side L (Twins P m m' ts ts') p p' Q := hp.pre fun _ _ h => h.nil

theorem node_side {kind : NodeKind} {es es' : List Element}
    (h : Element.bareAll es = Element.bareAll es') :
    Side Never (Twins P m m' ts ts') (node kind es) (node kind es') fun n n' s s' =>
      Twins P m m' ts ts' s s' ∧ n.bare = n'.bare := by
  intro s s' hs
  refine Or.inr ⟨hs.node kind es es', ?_⟩
  exact congrArg (fun es => Node.mk 0 kind default es) h

theorem node_lost {kind : NodeKind} (es : List Element) {n : Node} (hn : .node n ∈ es)
    (h : P.Lost n) (s : State) : P.Lost ((node kind es).run s).1 := P.lost_child hn h

theorem Side.atDelim {c : Char} {f g : Bool → Parser β}
    (htrue : ∀ t t' : Token, t.bare = t'.bare → t.isDelim c = true →
      Side L (Twins P m m' [t] [t']) (f true) (g true) Q)
    (hfalse : Side L (Twins P m m' [] []) (f false) (g false) Q) :
    Side L (Twins P m m' [] []) (Grammar.atDelim c >>= f) (Grammar.atDelim c >>= g) Q := by
  refine Side.peek (f := fun t => f (t.isDelim c)) (g := fun t => g (t.isDelim c)) ?_ ?_
  · intro t t' hbare hkind
    rw [← Token.isDelim_of_bare hbare, isDelim_eof hkind]
    exact hfalse
  · intro t t' hbare hkind
    rw [← Token.isDelim_of_bare hbare]
    cases hdelim : t.isDelim c with
    | true => exact htrue t t' hbare hdelim
    | false => exact hfalse.forget

theorem Side.atDelim_known {c : Char} {f g : Bool → Parser β}
    (hf : Side L (Twins P m m' (t :: ts) (t' :: ts')) (f (t.isDelim c)) (g (t.isDelim c)) Q) :
    Side L (Twins P m m' (t :: ts) (t' :: ts')) (Grammar.atDelim c >>= f) (Grammar.atDelim c >>= g)
      Q := by
  refine Side.of_known fun hbare _ _ _ => ?_
  refine Side.peek_known (f := fun t => f (t.isDelim c)) (g := fun t => g (t.isDelim c)) ?_
  rw [← Token.isDelim_of_bare hbare]
  exact hf

/-- A token of a kind is taken if it is the next one, and is the last one taken then. -/
theorem Side.eat_taken {kind : TokenKind} (hkind : kind ≠ .eof) {f g : Option Token → Parser β}
    (hnone : Side L (Twins P m m' [] []) (f none) (g none) Q)
    (hsome : ∀ t t' : Token, t.bare = t'.bare → t.kind = kind → 0 < m → 0 < m' →
      Side L (fun s s' => Twins P (m - 1) (m' - 1) [] [] s s' ∧ (∃ us, s.taken = t :: us) ∧
        ∃ us, s'.taken = t' :: us) (f (some t)) (g (some t')) Q) :
    Side L (Twins P m m' [] []) (Grammar.eat kind >>= f) (Grammar.eat kind >>= g) Q := by
  have heat : ∀ g : Option Token → Parser β, (Grammar.eat kind >>= g) =
      (Grammar.peekKind >>= fun k => if k = kind then Grammar.bump >>= fun t => g (some t)
        else g none) := by
    intro g
    simp only [Grammar.eat, bind_assoc, bind_pure_comp]
    refine congrArg (Grammar.peekKind >>= ·) (funext fun k => ?_)
    split
    · rw [bind_map_left]
    · rw [pure_bind]
  rw [heat, heat]
  refine Side.peekKind ?_ fun t t' hbare hnext => ?_
  · rw [if_neg hkind.symm, if_neg hkind.symm]
    exact hnone
  · split
    next heq =>
      exact Side.of_known fun _ _ hm hm' => Side.bump_taken (hsome t t' hbare heq hm hm')
    next => exact hnone.forget

/-- A token of a kind is taken if it is the next one. -/
theorem Side.eat {kind : TokenKind} (hkind : kind ≠ .eof) {f g : Option Token → Parser β}
    (hnone : Side L (Twins P m m' [] []) (f none) (g none) Q)
    (hsome : ∀ t t' : Token, t.bare = t'.bare → t.kind = kind → 0 < m → 0 < m' →
      Side L (Twins P (m - 1) (m' - 1) [] []) (f (some t)) (g (some t')) Q) :
    Side L (Twins P m m' [] []) (Grammar.eat kind >>= f) (Grammar.eat kind >>= g) Q :=
  Side.eat_taken hkind hnone fun t t' hbare heq hm hm' =>
    (hsome t t' hbare heq hm hm').pre fun _ _ h => h.1

theorem eat_side {kind : TokenKind} (hkind : kind ≠ .eof) :
    Side Never (Twins P m m' [] []) (eat kind) (eat kind) fun o o' s s' =>
      Twins P m m' [] [] s s' ∧ o.map Token.bare = o'.map Token.bare := by
  have h : Side Never (Twins P m m' [] []) (eat kind >>= pure) (eat kind >>= pure) fun o o' s s' =>
      Twins P m m' [] [] s s' ∧ o.map Token.bare = o'.map Token.bare :=
    Side.eat hkind (Side.ret fun _ _ hs => ⟨hs, rfl⟩) fun t t' hbare _ _ _ =>
      Side.ret fun _ _ hs => ⟨hs.mono (Nat.sub_le m 1) (Nat.sub_le m' 1), by simp [hbare]⟩
  simpa using h

/-- A level of nesting is entered on both sides, or on neither. -/
theorem Side.enter {f g : Bool → Parser β}
    (hf : ∀ b, Side L (Twins P m m' ts ts') (f b) (g b) Q) :
    Side L (Twins P m m' ts ts') (Grammar.enter >>= f) (Grammar.enter >>= g) Q := by
  intro s s' h
  have hguard : s'.guard.enter s'.limit = s.guard.enter s.limit := by rw [h.guard, h.limit]
  rw [StateT.run_bind, StateT.run_bind]
  rcases enter_run s with ⟨guard, hok, hrun⟩ | ⟨e, herror, hrun⟩
  · rcases enter_run s' with ⟨guard', hok', hrun'⟩ | ⟨e', herror', -⟩
    · rw [hguard, hok] at hok'
      rw [hrun, hrun']
      exact hf true _ _ (h.setGuard (Except.ok.inj hok'))
    · rw [hguard, hok] at herror'
      cases herror'
  · rcases enter_run s' with ⟨guard', hok', -⟩ | ⟨e', -, hrun'⟩
    · rw [hguard, herror] at hok'
      cases hok'
    · rw [hrun, hrun']
      exact hf false _ _ (h.setGuard h.guard)

theorem Side.exit {f g : Unit → Parser β}
    (hf : Side L (Twins P m m' ts ts') (f ()) (g ()) Q) :
    Side L (Twins P m m' ts ts') (Grammar.exit >>= f) (Grammar.exit >>= g) Q := by
  intro s s' h
  exact hf _ _ (h.setGuard (congrArg Guard.exit h.guard))

namespace Tandem

variable {F : State → State → Prop}

theorem nth (ts ts' : List Token) {f g : Token → Attempt β}
    (hlast : ∀ t t' : Token, t.bare = t'.bare → t.kind = .eof →
      Tandem L (Twins P m m' ts ts') (f t) (g t') Q F)
    (hnext : ∀ t t' : Token, t.bare = t'.bare → t.kind ≠ .eof →
      Tandem L (Twins P m m' (ts ++ [t]) (ts' ++ [t'])) (f t) (g t') Q F) :
    Tandem L (Twins P m m' ts ts') (liftM (Grammar.nth ts.length) >>= f)
      (liftM (Grammar.nth ts.length) >>= g) Q F := Side.nth ts ts' hlast hnext

theorem peek {f g : Token → Attempt β}
    (hlast : ∀ t t' : Token, t.bare = t'.bare → t.kind = .eof →
      Tandem L (Twins P m m' [] []) (f t) (g t') Q F)
    (hnext : ∀ t t' : Token, t.bare = t'.bare → t.kind ≠ .eof →
      Tandem L (Twins P m m' [t] [t']) (f t) (g t') Q F) :
    Tandem L (Twins P m m' [] []) (liftM Grammar.peek >>= f) (liftM Grammar.peek >>= g) Q F :=
  Side.peek hlast hnext

theorem peekKind {f g : TokenKind → Attempt β}
    (hlast : Tandem L (Twins P m m' [] []) (f .eof) (g .eof) Q F)
    (hnext : ∀ t t' : Token, t.bare = t'.bare → t.kind ≠ .eof →
      Tandem L (Twins P m m' [t] [t']) (f t.kind) (g t.kind) Q F) :
    Tandem L (Twins P m m' [] []) (liftM Grammar.peekKind >>= f) (liftM Grammar.peekKind >>= g)
      Q F := Side.peekKind hlast hnext

theorem peek_known {f g : Token → Attempt β}
    (hf : Tandem L (Twins P m m' (t :: ts) (t' :: ts')) (f t) (g t') Q F) :
    Tandem L (Twins P m m' (t :: ts) (t' :: ts')) (liftM Grammar.peek >>= f)
      (liftM Grammar.peek >>= g) Q F := Side.peek_known hf

theorem of_known {p p' : Attempt β}
    (h : t.bare = t'.bare → t.kind ≠ .eof → 0 < m → 0 < m' →
      Tandem L (Twins P m m' (t :: ts) (t' :: ts')) p p' Q F) :
    Tandem L (Twins P m m' (t :: ts) (t' :: ts')) p p' Q F := Side.of_known h

theorem forget {p p' : Attempt β} (hp : Tandem L (Twins P m m' [] []) p p' Q F) :
    Tandem L (Twins P m m' ts ts') p p' Q F := Side.forget hp

theorem bump_taken {f g : Token → Attempt β}
    (hf : Tandem L (fun s s' => Twins P (m - 1) (m' - 1) ts ts' s s' ∧
      (∃ us, s.taken = t :: us) ∧ ∃ us, s'.taken = t' :: us) (f t) (g t') Q F) :
    Tandem L (Twins P m m' (t :: ts) (t' :: ts')) (liftM Grammar.bump >>= f)
      (liftM Grammar.bump >>= g) Q F := Side.bump_taken hf

theorem bump_shorter {f g : Token → Attempt β}
    (hf : Tandem L (Twins P (m - 1) (m' - 1) ts ts') (f t) (g t') Q F) :
    Tandem L (Twins P m m' (t :: ts) (t' :: ts')) (liftM Grammar.bump >>= f)
      (liftM Grammar.bump >>= g) Q F := Side.bump_shorter hf

theorem bump {f g : Token → Attempt β} (hf : Tandem L (Twins P m m' ts ts') (f t) (g t') Q F) :
    Tandem L (Twins P m m' (t :: ts) (t' :: ts')) (liftM Grammar.bump >>= f)
      (liftM Grammar.bump >>= g) Q F := Side.bump hf

theorem atDelim {c : Char} {f g : Bool → Attempt β}
    (htrue : ∀ t t' : Token, t.bare = t'.bare → t.isDelim c = true →
      Tandem L (Twins P m m' [t] [t']) (f true) (g true) Q F)
    (hfalse : Tandem L (Twins P m m' [] []) (f false) (g false) Q F) :
    Tandem L (Twins P m m' [] []) (liftM (Grammar.atDelim c) >>= f)
      (liftM (Grammar.atDelim c) >>= g) Q F := Side.atDelim htrue hfalse

theorem atDelim_known {c : Char} {f g : Bool → Attempt β}
    (hf : Tandem L (Twins P m m' (t :: ts) (t' :: ts')) (f (t.isDelim c)) (g (t.isDelim c)) Q F) :
    Tandem L (Twins P m m' (t :: ts) (t' :: ts')) (liftM (Grammar.atDelim c) >>= f)
      (liftM (Grammar.atDelim c) >>= g) Q F := Side.atDelim_known hf

theorem eat {kind : TokenKind} (hkind : kind ≠ .eof) {f g : Option Token → Attempt β}
    (hnone : Tandem L (Twins P m m' [] []) (f none) (g none) Q F)
    (hsome : ∀ t t' : Token, t.bare = t'.bare → t.kind = kind → 0 < m → 0 < m' →
      Tandem L (Twins P (m - 1) (m' - 1) [] []) (f (some t)) (g (some t')) Q F) :
    Tandem L (Twins P m m' [] []) (OptionT.lift (Grammar.eat kind) >>= f)
      (OptionT.lift (Grammar.eat kind) >>= g) Q F := Side.eat hkind hnone hsome

/-- A token of a kind has to be there, and is the last one taken then. -/
theorem require_taken {kind : TokenKind} (hkind : kind ≠ .eof) {f g : Token → Attempt β}
    (hfail : ∀ s s', Twins P m m' [] [] s s' → F s s')
    (hf : ∀ t t' : Token, t.bare = t'.bare → t.kind = kind → 0 < m → 0 < m' →
      Tandem L (fun s s' => Twins P (m - 1) (m' - 1) [] [] s s' ∧ (∃ us, s.taken = t :: us) ∧
        ∃ us, s'.taken = t' :: us) (f t) (g t') Q F) :
    Tandem L (Twins P m m' [] []) (Grammar.require kind >>= f) (Grammar.require kind >>= g)
      Q F := by
  rw [Tandem, OptionT.run_bind, OptionT.run_bind]
  exact Side.eat_taken hkind (fun s s' hs => Or.inr (hfail s s' hs)) hf

/-- A token of a kind has to be there. -/
theorem require {kind : TokenKind} (hkind : kind ≠ .eof) {f g : Token → Attempt β}
    (hfail : ∀ s s', Twins P m m' [] [] s s' → F s s')
    (hf : ∀ t t' : Token, t.bare = t'.bare → t.kind = kind → 0 < m → 0 < m' →
      Tandem L (Twins P (m - 1) (m' - 1) [] []) (f t) (g t') Q F) :
    Tandem L (Twins P m m' [] []) (Grammar.require kind >>= f) (Grammar.require kind >>= g)
      Q F :=
  require_taken hkind hfail fun t t' hbare heq hm hm' =>
    (hf t t' hbare heq hm hm').pre fun _ _ h => h.1

theorem enter {f g : Bool → Attempt β}
    (hf : ∀ b, Tandem L (Twins P m m' ts ts') (f b) (g b) Q F) :
    Tandem L (Twins P m m' ts ts') (liftM Grammar.enter >>= f) (liftM Grammar.enter >>= g) Q F :=
  Side.enter hf

theorem exit {f g : Unit → Attempt β}
    (hf : Tandem L (Twins P m m' ts ts') (f ()) (g ()) Q F) :
    Tandem L (Twins P m m' ts ts') (liftM Grammar.exit >>= f) (liftM Grammar.exit >>= g) Q F :=
  Side.exit hf

end Tandem

end Steps

end CssTree.Grammar
