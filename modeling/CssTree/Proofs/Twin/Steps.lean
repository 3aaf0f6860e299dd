import CssTree.Proofs.Twin.Logic

namespace CssTree.Grammar

variable {α β : Type} {P : Pairing} {m m' : Nat} {ts ts' : List Token} {t t' : Token}
  {s s' : State} {L : β → Prop} {Q : β → β → State → State → Prop} {F : State → State → Prop}

/-- The token taken last is a colon. -/
def BehindColon (s : State) : Prop := ∃ t ts, s.taken = t :: ts ∧ t.kind = .colon

theorem BehindColon.behind (h : BehindColon s) : s.behind = some .colon := by
  obtain ⟨t, ts, htaken, hkind⟩ := h
  rw [State.behind, htaken, List.reverse_cons, Stream.kindAfter_append, Stream.kindAfter_cons,
    Stream.kindAfter_nil, hkind]

theorem Twins.settle_either (h : Twins P m m' ts ts' s s') (hs : BehindColon s)
    (hs' : BehindColon s') (b b' : Bool) :
    Twins P m m' ts ts' (if b then s else s.settle 0) (if b' then s' else s'.settle 0) := by
  have hview : ∀ {s : State} {c : Bool} {k : Nat} {us : List Token}, Poised P.folds c k us s →
      BehindColon s →
      ∀ b : Bool, (if b then s else s.settle 0).whole.foldBehind P.folds none =
        s.whole.foldBehind P.folds none := by
    intro s c k us hp hs b
    cases b with
    | true => rfl
    | false => exact hp.whole_settle_zero (hs.behind ▸ P.folds_colon)
  refine ⟨?_, ?_, ?_, h.known, ?_, ?_, ?_⟩
  · split
    · exact h.left
    · exact h.left.settle 0
  · split
    · exact h.right
    · exact h.right.settle 0
  · split <;> split <;> exact h.count
  · split <;> split <;> exact h.guard
  · split <;> split <;> exact h.limit
  · rw [hview h.left hs, hview h.right hs']
    exact h.paired

theorem Twins.touch_taken {rest rest' : List Token} (h : Twins P m m' ts ts' s s')
    (hs : s.taken = t :: rest) (hs' : s'.taken = t' :: rest') (ht : t.kind = .colon)
    (ht' : t'.kind = .colon) : t.touches ((s.settle 0).upcoming.nth 0) =
      t'.touches ((s'.settle 0).upcoming.nth 0) := by
  have hlist : ∀ {s : State} {t : Token} {rest : List Token}, s.taken = t :: rest →
      t.kind = .colon → ∃ us,
        s.taken.reverse ++ (s.upcoming.foldBehind P.folds s.behind).toList =
          rest.reverse ++ t :: (s.settle 0).upcoming.nth 0 :: us := by
    intro s t rest htaken hkind
    have hbehind : s.behind = some .colon := BehindColon.behind ⟨t, rest, htaken, hkind⟩
    have hnth : (s.upcoming.foldBehind P.folds s.behind).nth 0 = (s.settle 0).upcoming.nth 0 := by
      rw [hbehind, ← Stream.foldBehind_foldFront P.folds_colon]
      exact Stream.foldBehind_nth (Stream.settled_foldFront _)
    obtain ⟨us, hus⟩ := (s.upcoming.foldBehind P.folds s.behind).exists_toList
    refine ⟨us, ?_⟩
    rw [hus, hnth, htaken]
    simp
  obtain ⟨us, hus⟩ := hlist hs ht
  obtain ⟨us', hus'⟩ := hlist hs' ht'
  have hsplit := h.split
  rw [hus, hus'] at hsplit
  refine P.touch hsplit ?_
  have hcount := h.count
  rw [hs, hs', List.length_cons, List.length_cons] at hcount
  rw [List.length_reverse, List.length_reverse, Nat.succ.inj hcount]

theorem touchesTaken_run {rest : List Token} (hs : s.taken = t :: rest) :
    touchesTaken.run s = (t.touches ((s.settle 0).upcoming.nth 0),
      if !t.trailing.isEmpty then s else s.settle 0) := by
  have hrun : touchesTaken.run s = (if s.taken.head?.any (!·.trailing.isEmpty) then pure false
      else do return (← peek).leading.isEmpty : Parser Bool).run s := by
    unfold touchesTaken
    change StateT.run (if s.taken.head?.any (!·.trailing.isEmpty) then _ else _ : Parser Bool) s = _
    split <;> rfl
  rw [hrun, hs, List.head?_cons, Option.any_some]
  cases htrailing : t.trailing.isEmpty with
  | true =>
    rw [Token.touches, htrailing]
    rfl
  | false =>
    rw [Token.touches, htrailing]
    rfl

/-- Two runs that have just taken a colon. -/
def Colons (P : Pairing) (m m' : Nat) (ts ts' : List Token) (s s' : State) : Prop :=
  Twins P m m' ts ts' s s' ∧ BehindColon s ∧ BehindColon s'

/-- Behind a colon the runs agree on whether the next token touches it, although only one of them
may look at that token. -/
theorem touchesTaken_side : Side Never (Colons P m m' ts ts') touchesTaken touchesTaken
    fun b b' s s' => Colons P m m' ts ts' s s' ∧ b = b' := by
  rintro s s' ⟨h, hs, hs'⟩
  obtain ⟨t, rest, htaken, hkind⟩ := id hs
  obtain ⟨t', rest', htaken', hkind'⟩ := id hs'
  rw [touchesTaken_run htaken, touchesTaken_run htaken']
  have hbehind : ∀ {s : State} (b : Bool), BehindColon s →
      BehindColon (if b then s else s.settle 0) := by
    intro s b hs
    split
    · exact hs
    · exact hs
  exact Or.inr ⟨⟨h.settle_either hs hs' _ _, hbehind _ hs, hbehind _ hs'⟩,
    h.touch_taken htaken htaken' hkind hkind'⟩

/-- A look at the next token behind a colon. -/
theorem Side.peekKind_colons {f g : TokenKind → Parser β}
    (hlast : Side L (Colons P m m' [] []) (f .eof) (g .eof) Q)
    (hnext : ∀ t t' : Token, t.bare = t'.bare → t.kind ≠ .eof →
      Side L (Colons P m m' [t] [t']) (f t.kind) (g t.kind) Q) :
    Side L (Colons P m m' [] []) (Grammar.peekKind >>= f) (Grammar.peekKind >>= g) Q := by
  rintro s s' ⟨h, hs, hs'⟩
  have hlook : Side Never (Twins P m m' [] []) Grammar.peekKind Grammar.peekKind
      fun k k' r r' => k = k' ∧ (k = .eof ∧ Twins P m m' [] [] r r' ∨
        ∃ t t' : Token, t.bare = t'.bare ∧ t.kind ≠ .eof ∧ k = t.kind ∧
          Twins P m m' [t] [t'] r r') :=
    Side.peekKind (f := pure) (g := pure) (Side.ret fun r r' hr => ⟨rfl, Or.inl ⟨rfl, hr⟩⟩)
      fun t t' hbare hkind => Side.ret fun r r' hr =>
        ⟨rfl, Or.inr ⟨t, t', hbare, hkind, rfl, hr⟩⟩
  obtain ⟨hsame, ⟨heof, hr⟩ | ⟨t, t', hbare, hkind, hk, hr⟩⟩ := (hlook s s' h).resolve_left id
  · refine Side.known (I := fun r r' => r = s ∧ r' = s') ?_ hlast s s' ⟨rfl, rfl⟩
    rintro _ _ ⟨rfl, rfl⟩
    exact ⟨heof, hsame ▸ heof, hr, hs, hs'⟩
  · refine Side.known (I := fun r r' => r = s ∧ r' = s') ?_ (hnext t t' hbare hkind) s s' ⟨rfl, rfl⟩
    rintro _ _ ⟨rfl, rfl⟩
    exact ⟨hk, hsame ▸ hk, hr, hs, hs'⟩

theorem Poised.touchesNext_run {φ : Option TokenKind → Bool} {c : Bool} {k : Nat}
    {ws vs : List Token} {t u : Token} (h : Poised φ c k (ws ++ t :: u :: vs) s) :
    (Grammar.touchesNext ws.length).run s = (t.touches u, s) := by
  have hlength : ws.length + 1 < (ws ++ t :: u :: vs).length := by simp
  have hstate : ∀ {n : Nat}, n < (ws ++ t :: u :: vs).length → s.settle n = s := by
    intro n hn
    rw [State.settle, h.starts.settle_eq hn]
  have hfirst : (Grammar.nth ws.length).run s = (t, s) := by
    change ((s.settle ws.length).upcoming.nth ws.length, s.settle ws.length) = _
    rw [hstate (Nat.lt_of_succ_lt hlength), h.starts.nth (Nat.lt_of_succ_lt hlength)]
    simp
  have hsecond : (Grammar.nth (ws.length + 1)).run s = (u, s) := by
    change ((s.settle (ws.length + 1)).upcoming.nth (ws.length + 1), s.settle (ws.length + 1)) = _
    rw [hstate hlength, h.starts.nth hlength]
    simp [List.getElem_append_right]
  unfold Grammar.touchesNext
  rw [StateT.run_bind, hfirst]
  change StateT.run (if t.trailing.isEmpty then _ else _ : Parser Bool) s = _
  rw [Token.touches]
  cases t.trailing.isEmpty with
  | false => rfl
  | true =>
    rw [if_pos rfl, StateT.run_bind, hsecond]
    rfl

/-- Whether two known tokens touch. -/
theorem Side.touchesNext (ws ws' : List Token) {vs vs' : List Token} {u u' : Token}
    {f g : Bool → Parser β} (hws : ws.length = ws'.length)
    (hf : Side L (Twins P m m' (ws ++ t :: u :: vs) (ws' ++ t' :: u' :: vs'))
      (f (t.touches u)) (g (t.touches u)) Q) :
    Side L (Twins P m m' (ws ++ t :: u :: vs) (ws' ++ t' :: u' :: vs'))
      (Grammar.touchesNext ws.length >>= f) (Grammar.touchesNext ws.length >>= g) Q := by
  have hknown : ∀ s s', Twins P m m' (ws ++ t :: u :: vs) (ws' ++ t' :: u' :: vs') s s' →
      ((Grammar.touchesNext ws.length).run s).1 = t.touches u ∧
        ((Grammar.touchesNext ws.length).run s').1 = t.touches u ∧
        Twins P m m' (ws ++ t :: u :: vs) (ws' ++ t' :: u' :: vs')
          ((Grammar.touchesNext ws.length).run s).2 ((Grammar.touchesNext ws.length).run s').2 := by
    intro s s' h
    have hright := h.right.touchesNext_run
    rw [← hws] at hright
    rw [h.left.touchesNext_run, hright]
    exact ⟨rfl, (h.touch hws).symm, h⟩
  exact Side.known hknown hf

theorem Tandem.touchesNext (ws ws' : List Token) {vs vs' : List Token} {u u' : Token}
    {f g : Bool → Attempt β} (hws : ws.length = ws'.length)
    (hf : Tandem L (Twins P m m' (ws ++ t :: u :: vs) (ws' ++ t' :: u' :: vs'))
      (f (t.touches u)) (g (t.touches u)) Q F) :
    Tandem L (Twins P m m' (ws ++ t :: u :: vs) (ws' ++ t' :: u' :: vs'))
      (liftM (Grammar.touchesNext ws.length) >>= f) (liftM (Grammar.touchesNext ws.length) >>= g)
      Q F := Side.touchesNext ws ws' hws hf

/-- What a failure leaves behind can be undone. -/
def Undoes (ts : List Token) (p : Attempt α) : Prop :=
  ∀ s : State, s.Sound → s.upcoming.Starts ts → (p.run.run s).1 = none → Lost s (p.run.run s).2

theorem Undoes.of_tries {p : Attempt α} {R : State → α → State → Prop}
    (h : ∀ mark, Tries (Reads mark [] ts) p (R mark) (Lost mark)) : Undoes ts p := by
  intro s hs hstarts hnone
  have hrun := h s s ⟨.refl hs, hstarts⟩
  rwa [hnone] at hrun

/-- The two runs stand at the same place of their texts. -/
def Abreast (P : Pairing) (s s' : State) : Prop := ∃ m m', Twins P m m' [] [] s s'

theorem Twins.abreast (h : Twins P m m' ts ts' s s') : Abreast P s s' := ⟨m, m', h.nil⟩

/-- An attempt on both sides, from states of which more may be known than `Twins`. -/
theorem Side.attempt_from {I : State → State → Prop} {p p' : Attempt α} {K : α → Prop}
    {R : α → α → State → State → Prop} {f g : Option α → Parser β}
    (hI : ∀ s s', I s s' → Twins P m m' ts ts' s s' ∧
      ((p.run.run s).1 = none → Lost s (p.run.run s).2) ∧
      ((p'.run.run s').1 = none → Lost s' (p'.run.run s').2))
    (hp : Tandem K I p p' R (Abreast P))
    (hlost : ∀ a, K a → ∀ s, L ((f (some a)).run s).1)
    (hsome : ∀ a a', Side L (R a a') (f (some a)) (g (some a')) Q)
    (hnone : Side L (Twins P m m' ts ts') (f none) (g none) Q) :
    Side L I (Grammar.attempt p >>= f) (Grammar.attempt p' >>= g) Q := by
  intro s s' hs
  obtain ⟨h, hundone, hundone'⟩ := hI s s' hs
  rw [StateT.run_bind, StateT.run_bind, run_attempt, run_attempt]
  rcases hp s s' hs with ⟨a, ha, hk⟩ | hboth
  · cases hr : p.run.run s with | mk r s₁ => ?_
    rw [hr] at ha
    obtain rfl : r = some a := ha
    exact Or.inl (hlost a hk s₁)
  · cases hr : p.run.run s with | mk r s₁ => ?_
    cases hr' : p'.run.run s' with | mk r' s₁' => ?_
    rw [hr, hr'] at hboth
    rw [hr] at hundone
    rw [hr'] at hundone'
    cases r with
    | none =>
      cases r' with
      | none =>
        obtain ⟨k, k', hr⟩ := hboth
        exact hnone _ _ (h.rewind (hundone rfl) (hundone' rfl) hr)
      | some a' => exact hboth.elim
    | some a =>
      cases r' with
      | none => exact hboth.elim
      | some a' => exact hsome a a' _ _ hboth

theorem Side.attempt {p p' : Attempt α} {K : α → Prop} {R : α → α → State → State → Prop}
    {f g : Option α → Parser β} (hundo : Undoes ts p) (hundo' : Undoes ts' p')
    (hp : Tandem K (Twins P m m' ts ts') p p' R (Abreast P))
    (hlost : ∀ a, K a → ∀ s, L ((f (some a)).run s).1)
    (hsome : ∀ a a', Side L (R a a') (f (some a)) (g (some a')) Q)
    (hnone : Side L (Twins P m m' ts ts') (f none) (g none) Q) :
    Side L (Twins P m m' ts ts') (Grammar.attempt p >>= f) (Grammar.attempt p' >>= g) Q :=
  Side.attempt_from (fun s s' h => ⟨h, hundo s h.left.sound h.left.starts,
    hundo' s' h.right.sound h.right.starts⟩) hp hlost hsome hnone

theorem Tandem.attempt_from {I : State → State → Prop} {p p' : Attempt α} {K : α → Prop}
    {R : α → α → State → State → Prop} {f g : Option α → Attempt β}
    (hI : ∀ s s', I s s' → Twins P m m' ts ts' s s' ∧
      ((p.run.run s).1 = none → Lost s (p.run.run s).2) ∧
      ((p'.run.run s').1 = none → Lost s' (p'.run.run s').2))
    (hp : Tandem K I p p' R (Abreast P))
    (hlost : ∀ a, K a → ∀ s, ∃ b ∈ ((f (some a)).run.run s).1, L b)
    (hsome : ∀ a a', Tandem L (R a a') (f (some a)) (g (some a')) Q F)
    (hnone : Tandem L (Twins P m m' ts ts') (f none) (g none) Q F) :
    Tandem L I (OptionT.lift (Grammar.attempt p) >>= f) (OptionT.lift (Grammar.attempt p') >>= g)
      Q F := Side.attempt_from hI hp hlost hsome hnone

/-- At the end of the text a step fails and leaves everything as it is. -/
def Stops (item : Attempt α) : Prop :=
  ∀ s : State, s.Sound → s.upcoming.tokens = [] → item.run.run s = (none, s)

theorem run_of_peekKind (item : Attempt α) {f : TokenKind → Attempt α}
    (h : item = (liftM peekKind >>= f)) (s : State) :
    item.run.run s = (f ((s.settle 0).upcoming.nth 0).kind).run.run (s.settle 0) := by
  rw [h]
  rfl

theorem stops_of_peekKind {item : Attempt α} {f : TokenKind → Attempt α}
    (h : item = (liftM peekKind >>= f)) (hf : f .eof = failure) : Stops item := by
  intro s hs hnil
  have hsettle := State.settle_of_nil hnil 0
  have hkind : ((s.settle 0).upcoming.nth 0).kind = .eof := by
    rw [hsettle]
    simpa [Stream.nth, hnil] using hs.upcoming.last_kind
  rw [run_of_peekKind item h, hkind, hf, hsettle]
  rfl

/-- What holds of two runs between the results of a loop. -/
def Between (P : Pairing) (G : State → State → Prop) (m m' : Nat) (s s' : State) : Prop :=
  Twins P m m' [] [] s s' ∧ G s s'

variable {G : State → State → Prop}

theorem Between.mono {k k' : Nat} (h : Between P G m m' s s') (hk : m ≤ k) (hk' : m' ≤ k') :
    Between P G k k' s s' := ⟨h.1.mono hk hk', h.2⟩

theorem collect_lost {K : α → Prop} {item : Attempt α} {n : Nat}
    (h : ∃ a, (item.run.run s).1 = some a ∧ K a) : ∃ a ∈ ((collect item (n + 1)).run s).1, K a := by
  obtain ⟨a, ha, hk⟩ := h
  cases hr : item.run.run s with | mk o r => ?_
  rw [hr] at ha
  obtain rfl : o = some a := ha
  rw [collect_some hr]
  exact ⟨a, List.mem_cons_self, hk⟩

/-- One more result of a loop on both sides, or the end of both loops. -/
theorem collect_step {γ : Type} {view : α → γ} {K : α → Prop} {item item' : Attempt α} {n n' : Nat}
    (hitem : Tandem K (Between P G (n + 1) (n' + 1)) item item'
      (fun a a' s s' => Between P G n n' s s' ∧ view a = view a') (Between P G (n + 1) (n' + 1)))
    (hrest : Side (fun as => ∃ a ∈ as, K a) (Between P G n n') (collect item n) (collect item' n')
      fun as as' s s' => Between P G n n' s s' ∧ as.map view = as'.map view) :
    Side (fun as => ∃ a ∈ as, K a) (Between P G (n + 1) (n' + 1)) (collect item (n + 1))
      (collect item' (n' + 1))
      fun as as' s s' => Between P G (n + 1) (n' + 1) s s' ∧ as.map view = as'.map view := by
  intro s s' hs
  rcases hitem s s' hs with hlost | hboth
  · exact Or.inl (collect_lost hlost)
  cases hr : item.run.run s with | mk o r => ?_
  cases hr' : item'.run.run s' with | mk o' r' => ?_
  rw [hr, hr'] at hboth
  cases o with
  | none =>
    cases o' with
    | some a' => exact hboth.elim
    | none =>
      rw [collect_none hr, collect_none hr']
      exact Or.inr ⟨hboth, rfl⟩
  | some a =>
    cases o' with
    | none => exact hboth.elim
    | some a' =>
      obtain ⟨hbetween, hview⟩ := hboth
      rw [collect_some hr, collect_some hr']
      rcases hrest r r' hbetween with ⟨b, hb, hk⟩ | ⟨hend, hmap⟩
      · exact Or.inl ⟨b, List.mem_cons_of_mem a hb, hk⟩
      · refine Or.inr ⟨hend.mono (Nat.le_succ n) (Nat.le_succ n'), ?_⟩
        rw [List.map_cons, List.map_cons, hview, hmap]

/-- Two loops whose results agree stop together: where nothing is left on one side, the other side
finds no result there. -/
theorem collect_side {γ : Type} (view : α → γ) {K : α → Prop} {item item' : Attempt α} (M M' : Nat)
    (hstop : Stops item) (hstop' : Stops item')
    (hitem : ∀ k k', k ≤ M → k' ≤ M' → Tandem K (Between P G k k') item item'
      (fun a a' s s' => Between P G (k - 1) (k' - 1) s s' ∧ view a = view a') (Between P G k k'))
    (n n' : Nat) (hn : n ≤ M) (hn' : n' ≤ M') :
    Side (fun as => ∃ a ∈ as, K a) (Between P G n n') (collect item n) (collect item' n')
      fun as as' s s' => Between P G n n' s s' ∧ as.map view = as'.map view := by
  induction n generalizing n' with
  | zero =>
    intro s s' hs
    cases n' with
    | zero => exact Or.inr ⟨hs, rfl⟩
    | succ n' =>
      have hrun := hitem 0 (n' + 1) hn hn' s s' hs
      rw [hstop s hs.1.left.sound hs.1.left.spent] at hrun
      have hboth := hrun.resolve_left fun ⟨a, ha, _⟩ => by simp at ha
      cases hr' : item'.run.run s' with | mk o' r' => ?_
      rw [hr'] at hboth
      cases o' with
      | some a' => exact hboth.elim
      | none =>
        rw [collect_none hr']
        exact Or.inr ⟨hboth, rfl⟩
  | succ n ih =>
    cases n' with
    | zero =>
      intro s s' hs
      have hrun := hitem (n + 1) 0 hn hn' s s' hs
      rw [hstop' s' hs.1.right.sound hs.1.right.spent] at hrun
      rcases hrun with hlost | hboth
      · exact Or.inl (collect_lost hlost)
      cases hr : item.run.run s with | mk o r => ?_
      rw [hr] at hboth
      cases o with
      | some a => exact hboth.elim
      | none =>
        rw [collect_none hr]
        exact Or.inr ⟨hboth, rfl⟩
    | succ n' =>
      exact collect_step (hitem (n + 1) (n' + 1) hn hn')
        (ih n' (Nat.le_of_succ_le hn) (Nat.le_of_succ_le hn'))

theorem many_side {γ : Type} (view : α → γ) {K : α → Prop} {item item' : Attempt α}
    (hstop : Stops item) (hstop' : Stops item')
    (hitem : ∀ k k', k ≤ m → k' ≤ m' → Tandem K (Between P G k k') item item'
      (fun a a' s s' => Between P G (k - 1) (k' - 1) s s' ∧ view a = view a') (Between P G k k')) :
    Side (fun as => ∃ a ∈ as, K a) (Between P G m m') (many item) (many item')
      fun as as' s s' => Between P G m m' s s' ∧ as.map view = as'.map view := by
  intro s s' hs
  have hleft := hs.1.left.bound
  have hright := hs.1.right.bound
  have hrun := collect_side view m m' hstop hstop' hitem s.upcoming.length s'.upcoming.length hleft
    hright s s' ⟨hs.1.exact, hs.2⟩
  exact hrun.imp_right fun h => ⟨h.1.mono hleft hright, h.2⟩

theorem many_twins {γ : Type} (view : α → γ) {K : α → Prop} {item item' : Attempt α}
    (hstop : Stops item) (hstop' : Stops item')
    (hitem : ∀ k k', k ≤ m → k' ≤ m' → Tandem K (Twins P k k' [] []) item item'
      (fun a a' s s' => Twins P (k - 1) (k' - 1) [] [] s s' ∧ view a = view a')
      (Twins P k k' [] [])) :
    Side (fun as => ∃ a ∈ as, K a) (Twins P m m' [] []) (many item) (many item')
      fun as as' s s' => Twins P m m' [] [] s s' ∧ as.map view = as'.map view := by
  have hmany : Side (fun as => ∃ a ∈ as, K a) (Between P (fun _ _ => True) m m') (many item)
      (many item') fun as as' s s' => Between P (fun _ _ => True) m m' s s' ∧
        as.map view = as'.map view :=
    many_side view hstop hstop' fun k k' hk hk' => ((hitem k k' hk hk').pre fun _ _ h => h.1).post
      (fun _ _ _ _ h => ⟨⟨h.1, trivial⟩, h.2⟩) fun _ _ h => ⟨h, trivial⟩
  exact (hmany.pre fun _ _ h => ⟨h, trivial⟩).post fun _ _ _ _ h => ⟨h.1.1, h.2⟩

/-- Results with separators, seen through `view`. -/
def viewPairs {γ : Type} (view : α → γ) (pairs : List (α × Option Token)) :
    List (γ × Option Token) :=
  pairs.map fun pair => (view pair.1, pair.2.map Token.bare)

theorem collectSeparated_tandem {γ : Type} (view : α → γ) {item item' : Attempt α} (n n' : Nat)
    (hn : m < n) (hn' : m' < n')
    (hitem : ∀ k k', k ≤ m → k' ≤ m' → Tandem Never (Twins P k k' [] []) item item'
      (fun a a' s s' => Twins P k k' [] [] s s' ∧ view a = view a') F) :
    Tandem Never (Twins P m m' [] []) (collectSeparated item n) (collectSeparated item' n')
      (fun ps ps' s s' => Twins P m m' [] [] s s' ∧ viewPairs view ps = viewPairs view ps') F := by
  -- An item may take nothing, but the separator behind it is one token less to come.
  induction n generalizing n' m m' with
  | zero => exact absurd hn (Nat.not_lt_zero m)
  | succ n ih =>
    obtain ⟨n', rfl⟩ := Nat.exists_eq_succ_of_ne_zero (Nat.ne_zero_of_lt hn')
    refine Tandem.seq (hitem m m' (Nat.le_refl m) (Nat.le_refl m')) fun a a' hview => ?_
    refine Tandem.eat (by decide) ?_ fun t t' hbare _ hm hm' => ?_
    · exact Tandem.ret fun s s' hs => ⟨hs, by simp [viewPairs, hview]⟩
    · have hlength : m - 1 < n := by omega
      have hlength' : m' - 1 < n' := by omega
      have hrest := ih n' hlength hlength' fun k k' hk hk' => hitem k k' (by omega) (by omega)
      refine Tandem.seq (hrest.post (fun ps ps' s s' h =>
        ⟨h.1.mono (Nat.sub_le m 1) (Nat.sub_le m' 1), h.2⟩) fun _ _ h => h) fun ps ps' hpairs =>
          Tandem.ret fun s s' hs => ⟨hs, ?_⟩
      simpa [viewPairs, hview, hbare] using hpairs

theorem separated_tandem {γ : Type} (view : α → γ) {item item' : Attempt α}
    (hitem : ∀ k k', k ≤ m → k' ≤ m' → Tandem Never (Twins P k k' [] []) item item'
      (fun a a' s s' => Twins P k k' [] [] s s' ∧ view a = view a') F) :
    Tandem Never (Twins P m m' [] []) (separated item) (separated item')
      (fun l l' s s' => Twins P m m' [] [] s s' ∧ viewPairs view l.pairs = viewPairs view l'.pairs)
      F := by
  intro s s' hs
  have hleft := hs.left.bound
  have hright := hs.right.bound
  have hcollect := collectSeparated_tandem view (s.upcoming.length + 1) (s'.upcoming.length + 1)
    (Nat.lt_succ_self _) (Nat.lt_succ_self _)
    fun k k' hk hk' => hitem k k' (Nat.le_trans hk hleft) (Nat.le_trans hk' hright)
  have hall : Tandem Never (Twins P s.upcoming.length s'.upcoming.length [] [])
      (collectSeparated item (s.upcoming.length + 1) >>= fun pairs => pure ⟨pairs⟩ :
        Attempt (Punctuated α Token))
      (collectSeparated item' (s'.upcoming.length + 1) >>= fun pairs => pure ⟨pairs⟩)
      (fun l l' s s' => Twins P m m' [] [] s s' ∧
        viewPairs view l.pairs = viewPairs view l'.pairs) F := by
    refine Tandem.seq (hcollect.post (fun ps ps' r r' h => ⟨h.1.mono hleft hright, h.2⟩)
      fun r r' h => h) fun ps ps' hpairs => Tandem.ret fun r r' hr => ⟨hr, hpairs⟩
  exact hall s s' hs.exact

theorem bareAll_punctuatedNodes {l l' : Punctuated Node Token}
    (h : viewPairs Node.bare l.pairs = viewPairs Node.bare l'.pairs) :
    Element.bareAll (punctuatedNodes l) = Element.bareAll (punctuatedNodes l') := by
  have hview : ∀ l : Punctuated Node Token, Element.bareAll (punctuatedNodes l) =
      (viewPairs Node.bare l.pairs).flatMap fun pair =>
        .node pair.1 :: Element.ofToken? pair.2 := by
    rintro ⟨pairs⟩
    induction pairs with
    | nil => rfl
    | cons pair pairs ih =>
      simp only [punctuatedNodes, viewPairs, List.flatMap_cons, List.map_cons, List.cons_append,
        Element.bareAll_node, Element.bareAll_append, Element.bareAll_ofToken?] at ih ⊢
      rw [ih]
  rw [hview, hview, h]

theorem bareAll_punctuatedTokens {l l' : Punctuated Token Token}
    (h : viewPairs Token.bare l.pairs = viewPairs Token.bare l'.pairs) :
    Element.bareAll (punctuatedTokens l) = Element.bareAll (punctuatedTokens l') := by
  have hview : ∀ l : Punctuated Token Token, Element.bareAll (punctuatedTokens l) =
      (viewPairs Token.bare l.pairs).flatMap fun pair =>
        .token pair.1 :: Element.ofToken? pair.2 := by
    rintro ⟨pairs⟩
    induction pairs with
    | nil => rfl
    | cons pair pairs ih =>
      simp only [punctuatedTokens, viewPairs, List.flatMap_cons, List.map_cons, List.cons_append,
        Element.bareAll_token, Element.bareAll_append, Element.bareAll_ofToken?] at ih ⊢
      rw [ih]
  rw [hview, hview, h]

end CssTree.Grammar
