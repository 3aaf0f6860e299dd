import CssTree.Proofs.Grammar.Took

namespace CssTree.Grammar

/-- From a state with `P`, a step leads to a result and a state with `Q`. -/
def Keeps {α : Type} (P : State → Prop) (p : Parser α) (Q : α → State → Prop) : Prop :=
  ∀ s, P s → Q (p.run s).1 (p.run s).2

/-- From a state with `P`, a step leads to a result and a state with `Q`, or it fails in a state
with `F`. -/
def Tries {α : Type} (P : State → Prop) (p : Attempt α) (Q : α → State → Prop)
    (F : State → Prop) : Prop :=
  Keeps P p.run fun r s => r.elim (F s) (Q · s)

section Rules

variable {α β : Type} {P P' F : State → Prop}

namespace Keeps

theorem ret {Q : α → State → Prop} {a : α} (h : ∀ s, P s → Q a s) : Keeps P (pure a) Q := h

theorem bind {p : Parser α} {f : α → Parser β} {R : α → State → Prop} {Q : β → State → Prop}
    (hp : Keeps P p R) (hf : ∀ a, Keeps (R a) (f a) Q) : Keeps P (p >>= f) Q :=
  fun s hs => hf _ _ (hp s hs)

theorem pre {p : Parser α} {Q : α → State → Prop} (h : ∀ s, P s → P' s) (hp : Keeps P' p Q) :
    Keeps P p Q := fun s hs => hp s (h s hs)

theorem post {p : Parser α} {Q R : α → State → Prop} (hp : Keeps P p R)
    (h : ∀ a s, R a s → Q a s) : Keeps P p Q := fun s hs => h _ _ (hp s hs)

/-- What a step says of its result is known from then on. -/
theorem seq {p : Parser α} {f : α → Parser β} {R : α → State → Prop} {φ : α → Prop}
    {Q : β → State → Prop} (hp : Keeps P p fun a s => R a s ∧ φ a)
    (hf : ∀ a, φ a → Keeps (R a) (f a) Q) : Keeps P (p >>= f) Q :=
  fun s hs => hf _ (hp s hs).2 _ (hp s hs).1

/-- A step whose result is known. -/
theorem known {p : Parser α} {a : α} {f : α → Parser β} {Q : β → State → Prop}
    (hp : Keeps P p fun r s => P' s ∧ r = a) (hf : Keeps P' (f a) Q) : Keeps P (p >>= f) Q :=
  hp.seq fun _ hr => hr ▸ hf

end Keeps

namespace Tries

theorem ret {Q : α → State → Prop} {a : α} (h : ∀ s, P s → Q a s) : Tries P (pure a) Q F := h

theorem fail {Q : α → State → Prop} (h : ∀ s, P s → F s) : Tries P failure Q F := h

theorem bind {p : Attempt α} {f : α → Attempt β} {R : α → State → Prop} {Q : β → State → Prop}
    (hp : Tries P p R F) (hf : ∀ a, Tries (R a) (f a) Q F) : Tries P (p >>= f) Q F := by
  rw [Tries, OptionT.run_bind]
  refine Keeps.bind hp fun r => ?_
  cases r with
  | none => exact fun s hs => hs
  | some a => exact hf a

theorem lift {p : Parser α} {Q : α → State → Prop} (hp : Keeps P p Q) :
    Tries P (OptionT.lift p) Q F := hp

theorem run {p : Parser α} {Q : α → State → Prop} (hp : Keeps P p Q) :
    Tries P (liftM p : Attempt α) Q F := hp

/-- A step that cannot fail before one that can. -/
theorem call {p : Parser α} {f : α → Attempt β} {R : α → State → Prop} {Q : β → State → Prop}
    (hp : Keeps P p R) (hf : ∀ a, Tries (R a) (f a) Q F) :
    Tries P ((liftM p : Attempt α) >>= f) Q F := Keeps.bind hp hf

theorem call_seq {p : Parser α} {f : α → Attempt β} {R : α → State → Prop} {φ : α → Prop}
    {Q : β → State → Prop} (hp : Keeps P p fun a s => R a s ∧ φ a)
    (hf : ∀ a, φ a → Tries (R a) (f a) Q F) : Tries P ((liftM p : Attempt α) >>= f) Q F :=
  Keeps.seq hp hf

theorem pre {p : Attempt α} {Q : α → State → Prop} (h : ∀ s, P s → P' s) (hp : Tries P' p Q F) :
    Tries P p Q F := fun s hs => hp s (h s hs)

theorem post {p : Attempt α} {Q R : α → State → Prop} (hp : Tries P p R F)
    (h : ∀ a s, R a s → Q a s) : Tries P p Q F := by
  intro s hs
  have hq := hp s hs
  cases hr : (p.run.run s).1 with
  | none => simpa [hr] using hq
  | some a => simpa [hr] using h a _ (by simpa [hr] using hq)

theorem of_exists {γ : Type} {R : γ → State → Prop} {p : Attempt α} {Q : α → State → Prop}
    (hp : ∀ c, Tries (R c) p Q F) : Tries (fun s => ∃ c, R c s) p Q F :=
  fun s ⟨c, hs⟩ => hp c s hs

/-- What a step says of its result is known from then on. -/
theorem seq {p : Attempt α} {f : α → Attempt β} {R : α → State → Prop} {φ : α → Prop}
    {Q : β → State → Prop} (hp : Tries P p (fun a s => R a s ∧ φ a) F)
    (hf : ∀ a, φ a → Tries (R a) (f a) Q F) : Tries P (p >>= f) Q F :=
  hp.bind fun a s hs => hf a hs.2 s hs.1

end Tries

end Rules

/-- Since `mark` the elements `es` were made, and the next tokens are `ts`. -/
def Reads (mark : State) (es : List Element) (ts : List Token) (s : State) : Prop :=
  Took mark es s ∧ s.upcoming.Starts ts

/-- Since `mark` some elements were made. -/
def Lost (mark s : State) : Prop := ∃ es, Took mark es s

variable {mark : State} {es : List Element} {ts : List Token}

theorem Reads.lost {s : State} (h : Reads mark es ts s) : Lost mark s := ⟨es, h.1⟩

theorem Lost.trans {s s' : State} (h : Took mark es s) (h' : Lost s s') : Lost mark s' :=
  h'.elim fun _ h' => ⟨_, h.trans h'⟩

theorem Reads.weaken {s : State} {us : List Token} (h : Reads mark es ts s) (hus : us <+: ts) :
    Reads mark es us s :=
  ⟨h.1, hus.trans h.2.next, fun t ht => h.2.settled t (hus.subset ht)⟩

theorem Reads.nil {s : State} (h : Reads mark es ts s) : Reads mark es [] s :=
  h.weaken List.nil_prefix

theorem Took.reads {s : State} (h : Took mark es s) : Reads mark es [] s :=
  ⟨h, Stream.starts_nil _⟩

section Steps

variable {α β : Type} {F : State → Prop}

/-- The token after others that are known is looked at: the end of the text, or one more token
that is known then. -/
theorem Keeps.nth_end {f : Token → Parser β} {Q : β → State → Prop}
    (hlast : ∀ t, t.kind = .eof → Keeps
      (fun s => Reads mark es ts s ∧ (ts = [] → s.upcoming.tokens = [])) (f t) Q)
    (hnext : ∀ t, t.kind ≠ .eof → Keeps (Reads mark es (ts ++ [t])) (f t) Q) :
    Keeps (Reads mark es ts) (Grammar.nth ts.length >>= f) Q := by
  intro s ⟨htook, hstarts⟩
  have hsettle := htook.trans (Took.settle htook.sound ts.length)
  rw [List.append_nil] at hsettle
  have hstarts' := hstarts.settle ts.length
  by_cases hkind : ((s.settle ts.length).upcoming.nth ts.length).kind = .eof
  · refine hlast _ hkind _ ⟨⟨hsettle, hstarts'⟩, ?_⟩
    rintro rfl
    exact hsettle.sound.upcoming.tokens_eq_nil hkind
  · exact hnext _ hkind _ ⟨hsettle, hstarts.settle_nth hsettle.sound.upcoming.last_kind hkind⟩

theorem Keeps.nth {f : Token → Parser β} {Q : β → State → Prop}
    (hlast : ∀ t, t.kind = .eof → Keeps (Reads mark es ts) (f t) Q)
    (hnext : ∀ t, t.kind ≠ .eof → Keeps (Reads mark es (ts ++ [t])) (f t) Q) :
    Keeps (Reads mark es ts) (Grammar.nth ts.length >>= f) Q :=
  Keeps.nth_end (fun t ht => (hlast t ht).pre fun _ hs => hs.1) hnext

/-- A token that is known is looked at once more. -/
theorem Keeps.nth_known {f : Token → Parser β} {Q : β → State → Prop} {n : Nat}
    (hn : n < ts.length) (hf : Keeps (Reads mark es ts) (f ts[n]) Q) :
    Keeps (Reads mark es ts) (Grammar.nth n >>= f) Q := by
  refine Keeps.known (fun s hs => ?_) hf
  have hstate : s.settle n = s := by rw [State.settle, hs.2.settle_eq hn]
  show Reads mark es ts (s.settle n) ∧ (s.settle n).upcoming.nth n = ts[n]
  rw [hstate]
  exact ⟨hs, hs.2.nth hn⟩

/-- The next token is taken as it is. -/
theorem bumpRaw_take {t : Token} :
    Keeps (fun s => Reads mark es [] s ∧ ∃ us, s.upcoming.tokens = t :: ts ++ us ∧
      ∀ u ∈ ts, u.kind ≠ .openComment)
      Grammar.bumpRaw fun u s => Reads mark (es ++ [.token t]) ts s ∧ u = t := by
  rintro s ⟨⟨htook, -⟩, us, htokens, hkinds⟩
  obtain ⟨hfirst, hrest, htake⟩ := Took.take htook.sound htokens
  exact ⟨⟨htook.trans htake, ⟨us, hrest.symm⟩, hkinds⟩, hfirst⟩

theorem bumpRaw_keeps {kind : TokenKind} (hkind : kind ≠ .eof) :
    Keeps (fun s => Reads mark es [] s ∧ s.upcoming.head.kind = kind) Grammar.bumpRaw fun t s =>
      Reads mark (es ++ [.token t]) [] s ∧ t.kind = kind := by
  rintro s ⟨hs, hhead⟩
  cases htokens : s.upcoming.tokens with
  | nil =>
    rw [Stream.head, htokens, List.headD_nil, hs.1.sound.upcoming.last_kind] at hhead
    exact absurd hhead.symm hkind
  | cons t ts =>
    have htake : Reads mark (es ++ [.token t]) [] (Grammar.bumpRaw.run s).2 ∧
        (Grammar.bumpRaw.run s).1 = t := bumpRaw_take s ⟨hs, ts, htokens, by simp⟩
    rw [Stream.head, htokens, List.headD_cons] at hhead
    rw [htake.2]
    exact ⟨htake.1, hhead⟩

/-- The next token is taken. -/
theorem Keeps.bump {t : Token} {f : Token → Parser β} {Q : β → State → Prop}
    (hf : Keeps (Reads mark (es ++ [.token t]) ts) (f t) Q) :
    Keeps (Reads mark es (t :: ts)) (Grammar.bump >>= f) Q := by
  refine Keeps.known ?_ hf
  refine Keeps.bind (R := fun _ s => Reads mark es [] s ∧ ∃ us, s.upcoming.tokens = t :: ts ++ us ∧
      ∀ u ∈ ts, u.kind ≠ .openComment) (fun s hs => ?_) fun _ => bumpRaw_take
  have hstate : s.settle 0 = s := by rw [State.settle, hs.2.settle_eq (by simp)]
  show Reads mark es [] (s.settle 0) ∧ ∃ us, (s.settle 0).upcoming.tokens = t :: ts ++ us ∧
    ∀ u ∈ ts, u.kind ≠ .openComment
  rw [hstate]
  obtain ⟨us, hus⟩ := hs.2.next
  exact ⟨hs.nil, us, hus.symm, fun u hu => hs.2.settled u (List.mem_cons_of_mem t hu)⟩

theorem Keeps.peek {f : Token → Parser β} {Q : β → State → Prop}
    (hlast : ∀ t, t.kind = .eof →
      Keeps (fun s => Reads mark es [] s ∧ s.upcoming.tokens = []) (f t) Q)
    (hnext : ∀ t, t.kind ≠ .eof → Keeps (Reads mark es [t]) (f t) Q) :
    Keeps (Reads mark es []) (Grammar.peek >>= f) Q :=
  Keeps.nth_end (fun t ht => (hlast t ht).pre fun _ hs => ⟨hs.1, hs.2 rfl⟩) hnext

theorem Keeps.peek_known {t : Token} {f : Token → Parser β} {Q : β → State → Prop}
    (hf : Keeps (Reads mark es (t :: ts)) (f t) Q) :
    Keeps (Reads mark es (t :: ts)) (Grammar.peek >>= f) Q :=
  Keeps.nth_known (Nat.zero_lt_succ _) hf

theorem Keeps.peekKind {f : TokenKind → Parser β} {Q : β → State → Prop}
    (hlast : Keeps (fun s => Reads mark es [] s ∧ s.upcoming.tokens = []) (f .eof) Q)
    (hnext : ∀ t, t.kind ≠ .eof → Keeps (Reads mark es [t]) (f t.kind) Q) :
    Keeps (Reads mark es []) (Grammar.peekKind >>= f) Q :=
  Keeps.peek (f := fun t => f t.kind) (fun _ ht => ht ▸ hlast) hnext

theorem Keeps.peekKind_known {t : Token} {f : TokenKind → Parser β} {Q : β → State → Prop}
    (hf : Keeps (Reads mark es (t :: ts)) (f t.kind) Q) :
    Keeps (Reads mark es (t :: ts)) (Grammar.peekKind >>= f) Q :=
  Keeps.peek_known (f := fun t => f t.kind) hf

theorem Reads.kind {s : State} {t : Token} {ts : List Token} (h : Reads mark es (t :: ts) s) :
    t.kind ≠ .eof := by
  obtain ⟨us, hus⟩ := h.2.next
  exact h.1.sound.upcoming.kinds t (List.mem_append_right _ (by simp [← hus]))

/-- A known token ahead is not the end of the text. -/
theorem Keeps.of_kind {t : Token} {ts : List Token} {p : Parser α} {Q : α → State → Prop}
    (h : t.kind ≠ .eof → Keeps (Reads mark es (t :: ts)) p Q) :
    Keeps (Reads mark es (t :: ts)) p Q := fun s hs => h hs.kind s hs

theorem isDelim_eof {t : Token} {c : Char} (h : t.kind = .eof) : t.isDelim c = false := by
  simp [Token.isDelim, h]

theorem Keeps.atDelim {c : Char} {f : Bool → Parser β} {Q : β → State → Prop}
    (htrue : ∀ t, t.isDelim c = true → Keeps (Reads mark es [t]) (f true) Q)
    (hfalse : Keeps (Reads mark es []) (f false) Q) :
    Keeps (Reads mark es []) (Grammar.atDelim c >>= f) Q := by
  refine Keeps.peek (f := fun t => f (t.isDelim c)) (fun t ht => ?_) fun t ht => ?_
  · have hdelim : t.isDelim c = false := by simp [Token.isDelim, ht]
    rw [hdelim]
    exact hfalse.pre fun s hs => hs.1
  · cases hdelim : t.isDelim c with
    | true => exact htrue t hdelim
    | false => exact hfalse.pre fun s hs => hs.nil

theorem Keeps.atDelim_known {c : Char} {t : Token} {ts : List Token} {f : Bool → Parser β}
    {Q : β → State → Prop} (hf : Keeps (Reads mark es (t :: ts)) (f (t.isDelim c)) Q) :
    Keeps (Reads mark es (t :: ts)) (Grammar.atDelim c >>= f) Q :=
  Keeps.peek_known (f := fun t => f (t.isDelim c)) hf

/-- A token of a kind is taken if it is the next one. -/
theorem eat_keeps {kind : TokenKind} (hkind : kind ≠ .eof) :
    Keeps (Reads mark es []) (eat kind) fun o s =>
      Reads mark (es ++ Element.ofToken? o) [] s ∧ ∀ t ∈ o, t.kind = kind := by
  unfold eat
  refine Keeps.peekKind ?_ fun t ht => ?_
  · rw [if_neg hkind.symm]
    exact Keeps.ret fun s hs => ⟨by simpa using hs.1, by simp⟩
  · split
    next heq => exact Keeps.bump (Keeps.ret fun s hs => ⟨hs, by simpa using heq⟩)
    next => exact Keeps.ret fun s hs => ⟨by simpa using hs.nil, by simp⟩

/-- A node is made of the last elements. -/
theorem node_keeps {fs gs : List Element} (kind : NodeKind) (hes : es = fs ++ gs)
    (hformed : ∀ id span, (Node.mk id kind span gs).Formed) :
    Keeps (Reads mark es ts) (node kind gs) fun n s =>
      Reads mark (fs ++ [.node n]) ts s ∧ n.elements = gs := by
  rintro s ⟨htook, hstarts⟩
  subst hes
  obtain ⟨-, helements, -, htook'⟩ := htook.node kind hformed
  exact ⟨⟨htook', hstarts⟩, helements⟩

/-- Most nodes may be made of any elements. -/
theorem node_keeps_plain {fs gs : List Element} {kind : NodeKind} (hes : es = fs ++ gs)
    (hlist : kind.listShape? = none := by rfl) (hkind : kind ≠ .declaration := by decide) :
    Keeps (Reads mark es ts) (node kind gs) fun n s =>
      Reads mark (fs ++ [.node n]) ts s ∧ n.elements = gs :=
  node_keeps kind hes fun _ _ => Node.formed_of_kind hlist hkind

theorem Took.setGuard {s : State} (h : Took mark es s) (guard : Guard)
    (refused : List DepthError) : Took mark es { s with guard, refused } :=
  ⟨h.start, ⟨h.sound.upcoming, h.sound.place, h.sound.fresh⟩, h.taken, h.laid, h.text, h.shorter,
    h.folded, h.steady, h.grown, h.created, h.formed⟩

/-- A level of nesting is entered if the guard admits one more; if not, that is noted. -/
theorem enter_run (s : State) :
    (∃ guard, s.guard.enter s.limit = .ok guard ∧ enter.run s = (true, { s with guard })) ∨
      ∃ e, s.guard.enter s.limit = .error e ∧
        enter.run s = (false, { s with refused := e :: s.refused }) := by
  unfold enter
  rw [StateT.run_bind, StateT.run_get, pure_bind]
  cases hguard : s.guard.enter s.limit with
  | ok guard => exact Or.inl ⟨guard, rfl, rfl⟩
  | error e => exact Or.inr ⟨e, rfl, rfl⟩

/-- Levels of nesting do not touch tokens. -/
theorem enter_keeps : Keeps (Reads mark es ts) enter fun _ => Reads mark es ts := by
  rintro s ⟨htook, hstarts⟩
  rcases enter_run s with ⟨guard, -, hrun⟩ | ⟨e, -, hrun⟩
  · rw [hrun]
    exact ⟨htook.setGuard guard s.refused, hstarts⟩
  · rw [hrun]
    exact ⟨htook.setGuard s.guard (e :: s.refused), hstarts⟩

theorem exit_keeps : Keeps (Reads mark es ts) exit fun _ => Reads mark es ts :=
  fun _ hs => ⟨hs.1.setGuard _ _, hs.2⟩

/-- A step whose run is known before others. -/
theorem run_bind_of {p : Parser α} {f : α → Parser β} {a : α} {s s' : State}
    (h : p.run s = (a, s')) : (p >>= f).run s = (f a).run s' := by
  rw [StateT.run_bind, h]
  rfl

/-- A step that succeeds before others. -/
theorem run_bind_some {p : Attempt α} {f : α → Attempt β} {a : α} {s s' : State}
    (h : p.run.run s = (some a, s')) : (p >>= f).run.run s = (f a).run.run s' := by
  simp only [OptionT.run_bind, Option.elimM, StateT.run_bind, h]
  rfl

/-- Only the first of some steps reads the state that they start in. -/
theorem run_bind_congr {p : Attempt α} {f : α → Attempt β} {s s' : State}
    (h : p.run.run s = p.run.run s') : (p >>= f).run.run s = (p >>= f).run.run s' := by
  simp only [OptionT.run_bind, Option.elimM, StateT.run_bind, h]

/-- A step that fails before others. -/
theorem run_bind_none {p : Attempt α} {f : α → Attempt β} {s s' : State}
    (h : p.run.run s = (none, s')) : (p >>= f).run.run s = (none, s') := by
  simp only [OptionT.run_bind, Option.elimM, StateT.run_bind, h]
  rfl

theorem peekKind_run (s : State) : Grammar.peekKind.run s =
    (((s.settle 0).upcoming.nth 0).kind, s.settle 0) := rfl

theorem eat_run (kind : TokenKind) (s : State) : (eat kind).run s =
    (if ((s.settle 0).upcoming.nth 0).kind = kind then do return some (← bump)
      else return none : Parser (Option Token)).run (s.settle 0) := rfl

theorem run_attempt (p : Attempt α) (s : State) :
    (attempt p).run s = if (p.run.run s).1.isNone then ((p.run.run s).1, s.rewind (p.run.run s).2)
      else p.run.run s := by
  show StateT.run (do
    if (p.run.run s).1.isNone then modify s.rewind
    return (p.run.run s).1 : Parser (Option α)) (p.run.run s).2 = _
  split <;> rfl

/-- A failed attempt leaves everything as it was, up to folded comments. What is to come when it
starts may be known to be `P`. -/
theorem Keeps.attempt_from (P : Stream → Prop) (el : α → List Element) (φ : α → Prop)
    {p : Attempt α} {us : List Token} {f : Option α → Parser β} {Q : β → State → Prop}
    (hp : ∀ mark, Tries (fun s => Reads mark [] ts s ∧ P s.upcoming) p
      (fun a s => Reads mark (el a) us s ∧ φ a) (Lost mark))
    (hsome : ∀ a, φ a → Keeps (Reads mark (es ++ el a) us) (f (some a)) Q)
    (hnone : Keeps (Reads mark es ts) (f none) Q) :
    Keeps (fun s => Reads mark es ts s ∧ P s.upcoming) (Grammar.attempt p >>= f) Q := by
  rintro s ⟨⟨htook, hstarts⟩, hupcoming⟩
  have hrun := hp s s ⟨⟨.refl htook.sound, hstarts⟩, hupcoming⟩
  rw [StateT.run_bind, run_attempt]
  cases hr : (p.run.run s).1 with
  | none =>
    rw [hr] at hrun
    obtain ⟨fs, hlost⟩ := hrun
    have hback := hlost.rewind
    have htook' := htook.trans hback
    rw [List.append_nil] at htook'
    refine hnone _ ⟨htook', ?_, hstarts.settled⟩
    simpa using hback.steady ts hstarts
  | some a =>
    rw [hr] at hrun
    obtain ⟨⟨htook', hstarts'⟩, ha⟩ := hrun
    have := hsome a ha _ ⟨htook.trans htook', hstarts'⟩
    rw [← hr] at this
    exact this

theorem Keeps.attempt (el : α → List Element) (φ : α → Prop) {p : Attempt α} {us : List Token}
    {f : Option α → Parser β} {Q : β → State → Prop}
    (hp : ∀ mark, Tries (Reads mark [] ts) p (fun a s => Reads mark (el a) us s ∧ φ a) (Lost mark))
    (hsome : ∀ a, φ a → Keeps (Reads mark (es ++ el a) us) (f (some a)) Q)
    (hnone : Keeps (Reads mark es ts) (f none) Q) :
    Keeps (Reads mark es ts) (Grammar.attempt p >>= f) Q :=
  (Keeps.attempt_from (fun _ => True) el φ (fun mark => (hp mark).pre fun _ hs => hs.1) hsome hnone).pre
    fun _ hs => ⟨hs, trivial⟩

/-- The kind of the next token, whether or not it starts a comment. -/
theorem Keeps.rawKind {f : TokenKind → Parser β} {Q : β → State → Prop}
    (hf : ∀ kind, Keeps (fun s => Reads mark es ts s ∧ s.upcoming.head.kind = kind) (f kind) Q) :
    Keeps (Reads mark es ts) (Grammar.rawKind >>= f) Q :=
  fun s hs => hf s.upcoming.head.kind s ⟨hs, rfl⟩

namespace Tries

variable {Q : β → State → Prop}

theorem bump {t : Token} {f : Token → Attempt β}
    (hf : Tries (Reads mark (es ++ [.token t]) ts) (f t) Q F) :
    Tries (Reads mark es (t :: ts)) (liftM Grammar.bump >>= f) Q F := Keeps.bump hf

theorem peek {f : Token → Attempt β}
    (hlast : ∀ t, t.kind = .eof → Tries (Reads mark es []) (f t) Q F)
    (hnext : ∀ t, t.kind ≠ .eof → Tries (Reads mark es [t]) (f t) Q F) :
    Tries (Reads mark es []) (liftM Grammar.peek >>= f) Q F :=
  Keeps.peek (fun t ht => Keeps.pre (fun _ hs => hs.1) (hlast t ht)) hnext

theorem peek_known {t : Token} {f : Token → Attempt β}
    (hf : Tries (Reads mark es (t :: ts)) (f t) Q F) :
    Tries (Reads mark es (t :: ts)) (liftM Grammar.peek >>= f) Q F := Keeps.peek_known hf

theorem peekKind_end {f : TokenKind → Attempt β}
    (hlast : Tries (fun s => Reads mark es [] s ∧ s.upcoming.tokens = []) (f .eof) Q F)
    (hnext : ∀ t, t.kind ≠ .eof → Tries (Reads mark es [t]) (f t.kind) Q F) :
    Tries (Reads mark es []) (liftM Grammar.peekKind >>= f) Q F :=
  Keeps.peekKind hlast hnext

theorem peekKind {f : TokenKind → Attempt β}
    (hlast : Tries (Reads mark es []) (f .eof) Q F)
    (hnext : ∀ t, t.kind ≠ .eof → Tries (Reads mark es [t]) (f t.kind) Q F) :
    Tries (Reads mark es []) (liftM Grammar.peekKind >>= f) Q F :=
  peekKind_end (hlast.pre fun _ hs => hs.1) hnext

theorem rawKind {f : TokenKind → Attempt β}
    (hf : ∀ kind, Tries (fun s => Reads mark es ts s ∧ s.upcoming.head.kind = kind) (f kind) Q F) :
    Tries (Reads mark es ts) (liftM Grammar.rawKind >>= f) Q F := Keeps.rawKind hf

theorem nth {f : Token → Attempt β}
    (hlast : ∀ t, t.kind = .eof → Tries (Reads mark es ts) (f t) Q F)
    (hnext : ∀ t, t.kind ≠ .eof → Tries (Reads mark es (ts ++ [t])) (f t) Q F) :
    Tries (Reads mark es ts) (liftM (Grammar.nth ts.length) >>= f) Q F := Keeps.nth hlast hnext

theorem atDelim {c : Char} {f : Bool → Attempt β}
    (htrue : ∀ t, t.isDelim c = true → Tries (Reads mark es [t]) (f true) Q F)
    (hfalse : Tries (Reads mark es []) (f false) Q F) :
    Tries (Reads mark es []) (liftM (Grammar.atDelim c) >>= f) Q F := Keeps.atDelim htrue hfalse

theorem atDelim_known {c : Char} {t : Token} {f : Bool → Attempt β}
    (hf : Tries (Reads mark es (t :: ts)) (f (t.isDelim c)) Q F) :
    Tries (Reads mark es (t :: ts)) (liftM (Grammar.atDelim c) >>= f) Q F :=
  Keeps.atDelim_known hf

theorem eat {kind : TokenKind} {f : Option Token → Attempt β} (hkind : kind ≠ .eof)
    (hf : ∀ o, (∀ t ∈ o, t.kind = kind) →
      Tries (Reads mark (es ++ Element.ofToken? o) []) (f o) Q F) :
    Tries (Reads mark es []) (OptionT.lift (Grammar.eat kind) >>= f) Q F :=
  Keeps.seq (eat_keeps hkind) hf

theorem attempt_from (P : Stream → Prop) (el : α → List Element) (φ : α → Prop)
    {p : Attempt α} {us : List Token} {f : Option α → Attempt β}
    (hp : ∀ mark, Tries (fun s => Reads mark [] ts s ∧ P s.upcoming) p
      (fun a s => Reads mark (el a) us s ∧ φ a) (Lost mark))
    (hsome : ∀ a, φ a → Tries (Reads mark (es ++ el a) us) (f (some a)) Q F)
    (hnone : Tries (Reads mark es ts) (f none) Q F) :
    Tries (fun s => Reads mark es ts s ∧ P s.upcoming)
      (OptionT.lift (Grammar.attempt p) >>= f) Q F :=
  Keeps.attempt_from P el φ hp hsome hnone

theorem attempt (el : α → List Element) (φ : α → Prop) {p : Attempt α} {us : List Token}
    {f : Option α → Attempt β}
    (hp : ∀ mark, Tries (Reads mark [] ts) p (fun a s => Reads mark (el a) us s ∧ φ a) (Lost mark))
    (hsome : ∀ a, φ a → Tries (Reads mark (es ++ el a) us) (f (some a)) Q F)
    (hnone : Tries (Reads mark es ts) (f none) Q F) :
    Tries (Reads mark es ts) (OptionT.lift (Grammar.attempt p) >>= f) Q F :=
  Keeps.attempt el φ hp hsome hnone

/-- A token of a kind has to be there. -/
theorem require {kind : TokenKind} {f : Token → Attempt β} (hkind : kind ≠ .eof)
    (hfail : ∀ s, Reads mark es [] s → F s)
    (hf : ∀ t, t.kind = kind → Tries (Reads mark (es ++ [.token t]) []) (f t) Q F) :
    Tries (Reads mark es []) (Grammar.require kind >>= f) Q F := by
  refine Tries.bind (R := fun t s => Reads mark (es ++ [.token t]) [] s ∧ t.kind = kind)
    ?_ fun t s hs => hf t hs.2 s hs.1
  refine Keeps.post (p := Grammar.eat kind) (eat_keeps hkind) fun o s heat => ?_
  cases o with
  | none => exact hfail s (by simpa using heat.1)
  | some t => exact ⟨by simpa using heat.1, heat.2 t rfl⟩

end Tries

theorem collect_none {item : Attempt α} {n : Nat} {s r : State}
    (h : item.run.run s = (none, r)) : (collect item (n + 1)).run s = ([], r) := by
  rw [collect, StateT.run_bind, h]
  rfl

theorem collect_some {item : Attempt α} {n : Nat} {a : α} {s r : State}
    (h : item.run.run s = (some a, r)) : (collect item (n + 1)).run s =
      (a :: ((collect item n).run r).1, ((collect item n).run r).2) := by
  rw [collect, StateT.run_bind, h]
  rfl

/-- Results of a step that fails without taking anything. -/
theorem collect_keeps {item : Attempt α} (el : α → List Element)
    (hitem : ∀ es, Tries (Reads mark es []) item (fun a => Reads mark (es ++ el a) [])
      (Reads mark es [])) (n : Nat) (es : List Element) :
    Keeps (Reads mark es []) (collect item n) fun as => Reads mark (es ++ as.flatMap el) [] := by
  induction n generalizing es with
  | zero => exact Keeps.ret fun s hs => by simpa using hs
  | succ n ih =>
    refine Keeps.bind (hitem es) fun r => ?_
    cases r with
    | none => exact Keeps.ret fun s hs => by simpa using hs
    | some a =>
      refine Keeps.bind (ih (es ++ el a)) fun as => Keeps.ret fun s hs => ?_
      simpa using hs

theorem many_keeps {item : Attempt α} (el : α → List Element)
    (hitem : ∀ es, Tries (Reads mark es []) item (fun a => Reads mark (es ++ el a) [])
      (Reads mark es [])) (es : List Element) :
    Keeps (Reads mark es []) (many item) fun as => Reads mark (es ++ as.flatMap el) [] :=
  fun s hs => collect_keeps el hitem s.upcoming.length es s hs

/-- A step that is repeated up to the end of the text reaches it, if each result takes a
token. -/
theorem collect_all {item : Attempt α} (el : α → List Element)
    (hitem : ∀ mark, Tries (Reads mark [] []) item
      (fun a s => Reads mark (el a) [] s ∧ Element.tokensOf (el a) ≠ [])
      fun s => Reads mark [] [] s ∧ s.upcoming.tokens = []) (n : Nat) (es : List Element) :
    Keeps (fun s => Reads mark es [] s ∧ s.upcoming.length ≤ n) (collect item n) fun as s =>
      Reads mark (es ++ as.flatMap el) [] s ∧ s.upcoming.tokens = [] := by
  induction n generalizing es with
  | zero =>
    refine Keeps.ret fun s hs => ⟨by simpa using hs.1, ?_⟩
    exact List.length_eq_zero_iff.mp (Nat.le_zero.mp hs.2)
  | succ n ih =>
    have hstep : Tries (fun s => Reads mark es [] s ∧ s.upcoming.length ≤ n + 1) item
        (fun a s => Reads mark (es ++ el a) [] s ∧ s.upcoming.length ≤ n)
        fun s => Reads mark es [] s ∧ s.upcoming.tokens = [] := by
      rintro s ⟨⟨htook, -⟩, hlength⟩
      have hrun := hitem s s ⟨.refl htook.sound, Stream.starts_nil _⟩
      cases hr : (item.run.run s).1 with
      | none =>
        rw [hr] at hrun
        have := htook.trans hrun.1.1
        rw [List.append_nil] at this
        exact ⟨this.reads, hrun.2⟩
      | some a =>
        rw [hr] at hrun
        have hshorter := hrun.1.1.shorter
        have hpos := List.length_pos_iff.mpr hrun.2
        exact ⟨(htook.trans hrun.1.1).reads, by omega⟩
    refine Keeps.bind hstep fun r => ?_
    cases r with
    | none => exact Keeps.ret fun s hs => by simpa using hs
    | some a =>
      refine Keeps.bind (ih (es ++ el a)) fun as => Keeps.ret fun s hs => ?_
      simpa using hs

theorem many_all {item : Attempt α} (el : α → List Element)
    (hitem : ∀ mark, Tries (Reads mark [] []) item
      (fun a s => Reads mark (el a) [] s ∧ Element.tokensOf (el a) ≠ [])
      fun s => Reads mark [] [] s ∧ s.upcoming.tokens = []) (es : List Element) :
    Keeps (Reads mark es []) (many item) fun as s =>
      Reads mark (es ++ as.flatMap el) [] s ∧ s.upcoming.tokens = [] :=
  fun s hs => collect_all el hitem s.upcoming.length es s ⟨hs, Nat.le_refl _⟩

/-- The elements of results with separators. -/
def pairElements (el : α → List Element) (pairs : List (α × Option Token)) : List Element :=
  pairs.flatMap fun pair => el pair.1 ++ Element.ofToken? pair.2

/-- Results with commas between them, and none behind the last. -/
theorem collectSeparated_tries {item : Attempt α} {el : α → List Element} (φ : α → Prop)
    {F : State → State → Prop} (hF : ∀ {mark es s s'}, Took mark es s → F s s' → F mark s')
    (hitem : ∀ mark, Tries (Reads mark [] []) item (fun a s => Reads mark (el a) [] s ∧ φ a)
      (F mark)) (n : Nat) : ∀ mark, mark.upcoming.length < n → Tries (Reads mark [] [])
      (collectSeparated item n) (fun pairs s => Reads mark (pairElements el pairs) [] s ∧
        ∃ front a, pairs = front ++ [(a, none)] ∧ φ a) (F mark) := by
  induction n with
  | zero => exact fun _ h => absurd h (Nat.not_lt_zero _)
  | succ n ih =>
    intro mark hlength
    refine Tries.seq (hitem mark) fun a ha => ?_
    refine Tries.eat (by decide) fun comma _ => ?_
    cases comma with
    | none => exact Tries.ret fun s hs => ⟨by simpa [pairElements] using hs, [], a, rfl, ha⟩
    | some comma =>
      have hrest : Tries (Reads mark (el a ++ [.token comma]) []) (collectSeparated item n)
          (fun pairs s => Reads mark (el a ++ [.token comma] ++ pairElements el pairs) [] s ∧
            ∃ front a, pairs = front ++ [(a, none)] ∧ φ a) (F mark) := by
        rintro s ⟨htook, -⟩
        have hshorter := htook.shorter
        simp only [Element.tokensOf_append, List.length_append, Element.tokensOf_token,
          Element.tokensOf_nil, List.length_cons, List.length_nil] at hshorter
        have hrun := ih s (by omega) s ⟨.refl htook.sound, Stream.starts_nil _⟩
        cases hr : ((collectSeparated item n).run.run s).1 with
        | none =>
          rw [hr] at hrun
          exact hF htook hrun
        | some pairs =>
          rw [hr] at hrun
          exact ⟨(htook.trans hrun.1.1).reads, hrun.2⟩
      refine Tries.seq hrest fun pairs hpairs => Tries.ret fun s hs => ?_
      obtain ⟨front, b, rfl, hb⟩ := hpairs
      exact ⟨by simpa [pairElements] using hs, (a, some comma) :: front, b, rfl, hb⟩

theorem endsSeparated_of_last {β : Type} {l : Punctuated α β} {front : List (α × Option β)} {a : α}
    (h : l.pairs = front ++ [(a, none)]) : l.endsSeparated = false := by
  simp [Punctuated.endsSeparated, h]

theorem separated_tries {item : Attempt α} (el : α → List Element) (φ : α → Prop)
    {F : State → State → Prop} (hF : ∀ {mark es s s'}, Took mark es s → F s s' → F mark s')
    (hitem : ∀ mark, Tries (Reads mark [] []) item (fun a s => Reads mark (el a) [] s ∧ φ a)
      (F mark)) :
    Tries (Reads mark es []) (separated item)
      (fun l s => Reads mark (es ++ pairElements el l.pairs) [] s ∧
        ∃ front a, l.pairs = front ++ [(a, none)] ∧ φ a) (F mark) := by
  rintro s ⟨htook, -⟩
  have hrun : (separated item).run.run s = (collectSeparated item (s.upcoming.length + 1) >>=
      fun pairs => pure ⟨pairs⟩ : Attempt (Punctuated α Token)).run.run s := rfl
  have hcollect : Tries (Reads s [] []) (collectSeparated item (s.upcoming.length + 1) >>=
      fun pairs => pure ⟨pairs⟩ : Attempt (Punctuated α Token))
      (fun l s' => Reads s (pairElements el l.pairs) [] s' ∧
        ∃ front a, l.pairs = front ++ [(a, none)] ∧ φ a) (F s) :=
    Tries.seq (collectSeparated_tries φ (F := F) hF hitem _ s (Nat.lt_succ_self _))
      fun pairs hpairs => Tries.ret fun _ hs => ⟨hs, hpairs⟩
  have h := hcollect s ⟨.refl htook.sound, Stream.starts_nil _⟩
  rw [hrun]
  cases hr : ((collectSeparated item (s.upcoming.length + 1) >>=
      fun pairs => pure ⟨pairs⟩ : Attempt (Punctuated α Token)).run.run s).1 with
  | none =>
    rw [hr] at h
    exact hF htook h
  | some l =>
    rw [hr] at h
    exact ⟨(htook.trans h.1.1).reads, h.2⟩

end Steps

end CssTree.Grammar
