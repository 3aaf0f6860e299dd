import CssTree.Proofs.Grammar.Since
import CssTree.Proofs.Syntax.Spelling

namespace CssTree.Grammar

/-- `d` levels are entered and `k` more may be; with all comments folded, the tokens to come are
`ts`, the last of which is the end of the text. -/
structure At (d k : Nat) (ts : List Token) (s : State) : Prop where
  sound : s.upcoming.Sound s.taken.reverse
  flat : FlatFrom false s.upcoming.tokens
  upcoming : s.upcoming.foldAll.toList = ts
  depth : s.guard.depth = d
  limit : s.limit = d + k

variable {d k : Nat} {t u : Token} {ts us : List Token} {s : State}

namespace At

theorem ne_nil (h : At d k ts s) : ts ≠ [] := by
  rw [← h.upcoming, Stream.toList]
  simp

theorem settle (h : At d k ts s) (n : Nat) : At d k ts (s.settle n) where
  sound := h.sound.settle n
  flat := Stream.flatFrom_settle h.flat n
  upcoming := by rw [← h.upcoming, State.settle, Stream.foldAll_settle n h.flat]
  depth := h.depth
  limit := h.limit

/-- The tokens looked at are those that are left when all comments are folded. -/
theorem nth_eq (h : At d k ts s) {n : Nat} (hn : ts[n]? = some t) :
    (s.settle n).upcoming.nth n = t := by
  have hsettled : (s.upcoming.settle n).Settled n := Stream.settled_settle n s.upcoming
  have hfold : (s.upcoming.settle n).foldAll = s.upcoming.foldAll := Stream.foldAll_settle n h.flat
  have hnth : (s.upcoming.settle n).foldAll.nth n = (s.upcoming.settle n).nth n :=
    Stream.foldBehind_nth hsettled
  rw [← h.upcoming, Stream.toList] at hn
  rw [State.settle, ← hnth, hfold, Stream.nth, List.getD_eq_getElem?_getD]
  rcases Nat.lt_or_ge n s.upcoming.foldAll.tokens.length with hlt | hge
  · rw [List.getElem?_append_left hlt] at hn
    rw [hn, Option.getD_some]
  · rw [List.getElem?_append_right hge] at hn
    rw [List.getElem?_eq_none hge, Option.getD_none]
    exact (List.mem_singleton.mp (List.mem_of_getElem? hn)).symm

theorem kind_ne_open (h : At d k ts s) (ht : t ∈ ts) : t.kind ≠ .openComment := by
  rw [← h.upcoming, Stream.toList] at ht
  rcases List.mem_append.mp ht with ht | ht
  · exact Stream.open_not_mem_foldAll _ t ht
  · rw [List.mem_singleton.mp ht, h.sound.foldAll.last_kind]
    decide

/-- The end of the text comes last, and only there. -/
theorem eof_iff (h : At d k (t :: ts) s) : t.kind = .eof ↔ ts = [] := by
  have hlist := h.upcoming
  have hsound := h.sound.foldAll
  rw [Stream.toList] at hlist
  cases htokens : s.upcoming.foldAll.tokens with
  | nil =>
    rw [htokens, List.nil_append, List.cons.injEq] at hlist
    rw [← hlist.1, ← hlist.2]
    simp [hsound.last_kind]
  | cons u us =>
    rw [htokens, List.cons_append, List.cons.injEq] at hlist
    have hkind := hsound.kinds u (List.mem_append_right _ (by rw [htokens]; exact List.mem_cons_self))
    rw [← hlist.1, ← hlist.2]
    simp [hkind]

/-- Behind a look at it, a token that does not end the text comes next. -/
theorem tokens_settle (h : At d k (t :: ts) s) (ht : t.kind ≠ .eof) :
    ∃ us, (s.settle 0).upcoming.tokens = t :: us := by
  have hnext : (s.settle 0).upcoming.nth 0 = t := h.nth_eq rfl
  cases htokens : (s.settle 0).upcoming.tokens with
  | nil =>
    have hlast := (h.settle 0).sound.last_kind
    rw [Stream.nth, htokens, List.getD_nil] at hnext
    exact absurd (hnext ▸ hlast) ht
  | cons u us =>
    rw [Stream.nth, htokens, List.getD_cons_zero] at hnext
    exact ⟨us, by rw [hnext]⟩

theorem take (h : At d k (t :: ts) s) (ht : t.kind ≠ .eof) :
    (s.settle 0).take.1 = t ∧ At d k ts (s.settle 0).take.2 := by
  have hopen : t.kind ≠ .openComment := h.kind_ne_open List.mem_cons_self
  obtain ⟨us, htokens⟩ := h.tokens_settle ht
  obtain ⟨hsound, hflat, hlist, hdepth, hlimit⟩ := h.settle 0
  generalize s.settle 0 = r at htokens hsound hflat hlist hdepth hlimit
  obtain ⟨taken, ⟨tokens, last⟩, place, guard, limit, arena, created, refused⟩ := r
  obtain rfl : tokens = t :: us := htokens
  rw [FlatFrom, if_neg hopen] at hflat
  rw [Stream.foldAll_keep hopen, Stream.toList_prepend, List.singleton_append,
    List.cons.injEq] at hlist
  refine ⟨rfl, ?_, hflat, hlist.2, hdepth, hlimit⟩
  show Stream.Sound (t :: taken).reverse ⟨us, last⟩
  rw [List.reverse_cons]
  exact hsound.of_cons

theorem length_upcoming (h : At d k ts s) : ts.length ≤ s.upcoming.length + 1 := by
  have hlength : s.upcoming.foldAll.tokens.length ≤ s.upcoming.length := by
    rw [Stream.foldAll_eq_settle (Nat.le_refl _)]
    exact Stream.length_settle _ _
  rw [← h.upcoming, Stream.toList, List.length_append, List.length_singleton]
  omega

theorem setGuard (h : At d k ts s) {d' k' : Nat} {guard : Guard} (hguard : guard.depth = d')
    (hroom : d' + k' = d + k) (refused : List DepthError) :
    At d' k' ts { s with guard, refused } :=
  ⟨h.sound, h.flat, h.upcoming, hguard, h.limit.trans hroom.symm⟩

/-- A new node does not touch tokens. -/
theorem node (h : At d k ts s) (kind : NodeKind) (es : List Element) :
    At d k ts ((Grammar.node kind es).run s).2 :=
  ⟨h.sound, h.flat, h.upcoming, h.depth, h.limit⟩

/-- Where tokens are put back, all is as before they were taken. -/
theorem rewind {mark : State} (h : At d k ts mark) (hs : Since mark us s) :
    At d k ts (mark.rewind s) := by
  have hfolded : mark.upcoming.Refolds (mark.rewind s).upcoming := hs.rewind.folded
  obtain ⟨hfold, hflat⟩ := hfolded.foldAll_eq h.flat
  exact ⟨hfolded.sound h.sound, hflat, by rw [hfold, h.upcoming], h.depth, h.limit⟩

end At

section Rules

variable {α β : Type} {Q : β → State → Prop} {F : State → Prop}

/-- There always is a next token. -/
theorem Keeps.of_at {p : Parser β}
    (h : ∀ t us, ts = t :: us → (t.kind = .eof ↔ us = []) → Keeps (At d k ts) p Q) :
    Keeps (At d k ts) p Q := by
  intro s hs
  obtain ⟨t, us, rfl⟩ := List.exists_cons_of_ne_nil hs.ne_nil
  exact h t us rfl hs.eof_iff s hs

theorem Keeps.nth_at {f : Token → Parser β} {n : Nat} (hn : ts[n]? = some t)
    (hf : Keeps (At d k ts) (f t) Q) : Keeps (At d k ts) (Grammar.nth n >>= f) Q := by
  refine Keeps.known (fun s hs => ?_) hf
  show At d k ts (s.settle n) ∧ (s.settle n).upcoming.nth n = t
  exact ⟨hs.settle n, hs.nth_eq hn⟩

theorem Keeps.peek_at {f : Token → Parser β} (hf : Keeps (At d k (t :: ts)) (f t) Q) :
    Keeps (At d k (t :: ts)) (Grammar.peek >>= f) Q := Keeps.nth_at rfl hf

theorem Keeps.peekKind_at {f : TokenKind → Parser β}
    (hf : Keeps (At d k (t :: ts)) (f t.kind) Q) :
    Keeps (At d k (t :: ts)) (Grammar.peekKind >>= f) Q :=
  Keeps.peek_at (f := fun t => f t.kind) hf

theorem Keeps.atDelim_at {c : Char} {f : Bool → Parser β}
    (hf : Keeps (At d k (t :: ts)) (f (t.isDelim c)) Q) :
    Keeps (At d k (t :: ts)) (Grammar.atDelim c >>= f) Q :=
  Keeps.peek_at (f := fun t => f (t.isDelim c)) hf

/-- The next token is taken. -/
theorem Keeps.bump_at {f : Token → Parser β} (ht : t.kind ≠ .eof)
    (hf : Keeps (At d k ts) (f t) Q) : Keeps (At d k (t :: ts)) (Grammar.bump >>= f) Q := by
  refine Keeps.known (fun s hs => ?_) hf
  show At d k ts (s.settle 0).take.2 ∧ (s.settle 0).take.1 = t
  exact (hs.take ht).symm

theorem Keeps.eat_at {kind : TokenKind} {f : Option Token → Parser β} (hkind : kind ≠ .eof)
    (hsome : t.kind = kind → Keeps (At d k ts) (f (some t)) Q)
    (hnone : t.kind ≠ kind → Keeps (At d k (t :: ts)) (f none) Q) :
    Keeps (At d k (t :: ts)) (Grammar.eat kind >>= f) Q := by
  have heat : (Grammar.eat kind >>= f) =
      (Grammar.peekKind >>= fun x => if x = kind then Grammar.bump >>= fun t => f (some t)
        else f none) := by
    simp only [Grammar.eat, bind_assoc, bind_pure_comp]
    refine congrArg (Grammar.peekKind >>= ·) (funext fun x => ?_)
    split
    · rw [bind_map_left]
    · rw [pure_bind]
  rw [heat]
  refine Keeps.peekKind_at ?_
  by_cases heq : t.kind = kind
  · rw [if_pos heq]
    exact Keeps.bump_at (by rw [heq]; exact hkind) (hsome heq)
  · rw [if_neg heq]
    exact hnone heq

theorem node_at (kind : NodeKind) (es : List Element) :
    Keeps (At d k ts) (node kind es) fun n s => At d k ts s ∧ n.kind = kind ∧ n.elements = es :=
  fun _ hs => ⟨hs.node kind es, rfl, rfl⟩

theorem Keeps.enter_at {f : Bool → Parser β} (hf : Keeps (At (d + 1) k ts) (f true) Q) :
    Keeps (At d (k + 1) ts) (Grammar.enter >>= f) Q := by
  intro s hs
  rw [StateT.run_bind]
  rcases enter_run s with ⟨guard, hok, hrun⟩ | ⟨e, herror, -⟩
  · rw [hrun]
    obtain ⟨-, rfl⟩ := Guard.enter_eq_ok_iff.mp hok
    exact hf _ (hs.setGuard (by rw [hs.depth]) (by omega) s.refused)
  · have hroom : s.guard.depth + 1 ≤ s.limit := by rw [hs.depth, hs.limit]; omega
    rw [Guard.enter_eq_ok_iff.mpr ⟨hroom, rfl⟩] at herror
    cases herror

/-- The last level is never entered. -/
theorem Keeps.enter_at_limit {f : Bool → Parser β} (hf : Keeps (At d 0 ts) (f false) Q) :
    Keeps (At d 0 ts) (Grammar.enter >>= f) Q := by
  intro s hs
  rw [StateT.run_bind]
  rcases enter_run s with ⟨guard, hok, -⟩ | ⟨e, -, hrun⟩
  · have hroom := (Guard.enter_eq_ok_iff.mp hok).1
    rw [hs.depth, hs.limit] at hroom
    omega
  · rw [hrun]
    exact hf _ (hs.setGuard hs.depth rfl _)

theorem Keeps.exit_at {f : Unit → Parser β} (hf : Keeps (At d (k + 1) ts) (f ()) Q) :
    Keeps (At (d + 1) k ts) (Grammar.exit >>= f) Q := by
  intro s hs
  refine hf _ (hs.setGuard ?_ (by omega) s.refused)
  rw [Guard.exit, hs.depth]
  rfl

/-- The fuel of a loop is the number of tokens before the end, at least. -/
theorem Keeps.length_at {f : Nat → Parser β}
    (hf : ∀ n, ts.length ≤ n + 1 → Keeps (At d k ts) (f n) Q) :
    Keeps (At d k ts) (do f (← get).upcoming.length) Q :=
  fun s hs => hf _ hs.length_upcoming s hs

/-- Tokens that are captured are the next ones. -/
theorem balancedFrom_at (expected : List TokenKind) (n : Nat) (ts : List Token) :
    Keeps (At d k ts) (balancedFrom expected n) fun xs s => ∃ us, ts = xs ++ us ∧ At d k us s := by
  induction n generalizing expected ts with
  | zero => exact Keeps.ret fun s hs => ⟨ts, rfl, hs⟩
  | succ n ih =>
    refine Keeps.of_at fun t us hts _ => ?_
    subst hts
    refine Keeps.peekKind_at ?_
    split
    next => exact Keeps.ret fun s hs => ⟨t :: us, rfl, hs⟩
    next ht =>
      refine Keeps.bump_at ht ?_
      dsimp only
      split
      next => exact Keeps.ret fun s hs => ⟨us, rfl, hs⟩
      next =>
        refine Keeps.bind (ih _ us) fun xs => Keeps.ret ?_
        rintro s ⟨vs, rfl, hs⟩
        exact ⟨vs, rfl, hs⟩

/-- A block that is nested too deeply is captured. -/
theorem recoverBlock_at (ht : t.kind ≠ .eof) :
    Keeps (At d k (t :: ts)) recoverBlock fun n s => ∃ us, t :: ts = n.tokens ++ us ∧ At d k us s ∧
      n.kind = .error ∧ n.tokens ≠ [] := by
  have hcapture : ∀ n, 0 < n → Keeps (At d k (t :: ts)) (balancedFrom [] n) fun xs s =>
      ∃ us, t :: ts = xs ++ us ∧ At d k us s ∧ xs ≠ [] := by
    intro n hn
    obtain ⟨n, rfl⟩ : ∃ n', n = n' + 1 := ⟨n - 1, by omega⟩
    refine Keeps.peekKind_at ?_
    rw [if_neg ht]
    refine Keeps.bump_at ht ?_
    dsimp only
    split
    next => exact Keeps.ret fun s hs => ⟨ts, rfl, hs, by simp⟩
    next =>
      refine Keeps.bind (balancedFrom_at _ n ts) fun xs => Keeps.ret ?_
      rintro s ⟨vs, rfl, hs⟩
      exact ⟨vs, rfl, hs, by simp⟩
  intro s hs
  have hpos : 0 < s.upcoming.length := by
    have hlength := hs.length_upcoming
    have hne : ts ≠ [] := fun hnil => ht (hs.eof_iff.mpr hnil)
    have hmore := List.length_pos_iff.mpr hne
    rw [List.length_cons] at hlength
    omega
  have hrun : Keeps (At d k (t :: ts)) (balancedFrom [] s.upcoming.length >>= errorNode) fun n s =>
      ∃ us, t :: ts = n.tokens ++ us ∧ At d k us s ∧ n.kind = .error ∧ n.tokens ≠ [] := by
    refine Keeps.bind (hcapture _ hpos) fun xs => ?_
    rintro s ⟨us, hsplit, hs, hne⟩
    have hnode := node_at (d := d) (k := k) .error (xs.map .token) s hs
    have htokens : (errorNode xs).run s = (node .error (xs.map .token)).run s := rfl
    rw [htokens]
    refine ⟨us, ?_, hnode.1, hnode.2.1, ?_⟩
    · rw [← Node.tokens_eq, hnode.2.2, Element.tokensOf_map_token, hsplit]
    · rw [← Node.tokens_eq, hnode.2.2, Element.tokensOf_map_token]
      exact hne
  exact hrun s hs

namespace Tries

theorem of_at {p : Attempt β}
    (h : ∀ t us, ts = t :: us → (t.kind = .eof ↔ us = []) → Tries (At d k ts) p Q F) :
    Tries (At d k ts) p Q F := Keeps.of_at h

theorem peekKind_at {f : TokenKind → Attempt β} (hf : Tries (At d k (t :: ts)) (f t.kind) Q F) :
    Tries (At d k (t :: ts)) (liftM Grammar.peekKind >>= f) Q F := Keeps.peekKind_at hf

theorem eat_at {kind : TokenKind} {f : Option Token → Attempt β} (hkind : kind ≠ .eof)
    (hsome : t.kind = kind → Tries (At d k ts) (f (some t)) Q F)
    (hnone : t.kind ≠ kind → Tries (At d k (t :: ts)) (f none) Q F) :
    Tries (At d k (t :: ts)) (OptionT.lift (Grammar.eat kind) >>= f) Q F :=
  Keeps.eat_at hkind hsome hnone

/-- A token of a kind has to be there. -/
theorem require_at {kind : TokenKind} {f : Token → Attempt β} (hkind : kind ≠ .eof)
    (hsome : t.kind = kind → Tries (At d k ts) (f t) Q F)
    (hnone : t.kind ≠ kind → ∀ s, At d k (t :: ts) s → F s) :
    Tries (At d k (t :: ts)) (Grammar.require kind >>= f) Q F := by
  rw [Tries, OptionT.run_bind]
  exact Keeps.eat_at hkind hsome fun hne s hs => hnone hne s hs

end Tries

end Rules

end CssTree.Grammar
