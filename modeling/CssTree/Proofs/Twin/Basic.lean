import CssTree.Proofs.Grammar.Took
import CssTree.Proofs.Token.Behind
import CssTree.Proofs.Tree.Bare

namespace CssTree

namespace Token

variable {t u : Token}

theorem kind_of_bare (h : t.bare = u.bare) : t.kind = u.kind := congrArg (fun x => x.kind) h

theorem text_of_bare (h : t.bare = u.bare) : t.text = u.text := congrArg (fun x => x.text) h

theorem value_of_bare (h : t.bare = u.bare) : t.value = u.value := congrArg (fun x => x.value) h

theorem isDelim_of_bare (h : t.bare = u.bare) (c : Char) : t.isDelim c = u.isDelim c := by
  rw [isDelim, isDelim, kind_of_bare h, text_of_bare h]

theorem name?_of_bare (h : t.bare = u.bare) : t.name? = u.name? := by
  rw [name?, name?, value_of_bare h]

theorem hasName_of_bare (h : t.bare = u.bare) (name : Text) : t.hasName name = u.hasName name := by
  rw [hasName, hasName, name?_of_bare h]

theorem isIdent_of_bare (h : t.bare = u.bare) (name : Text) : t.isIdent name = u.isIdent name := by
  rw [isIdent, isIdent, kind_of_bare h, hasName_of_bare h]

/-- Nothing stands between a token and the one after it. -/
def touches (t u : Token) : Bool := t.trailing.isEmpty && u.leading.isEmpty

end Token

namespace Stream

theorem bare_nth {s s' : Stream} (h : s.toList.map Token.bare = s'.toList.map Token.bare)
    (n : Nat) : (s.nth n).bare = (s'.nth n).bare := by
  simp only [toList, List.map_append, List.map_cons, List.map_nil] at h
  obtain ⟨htokens, hlast⟩ := List.append_inj' h rfl
  have hlast' : s.last.bare = s'.last.bare := by simpa using hlast
  have hget : (s.tokens[n]?).map Token.bare = (s'.tokens[n]?).map Token.bare := by
    rw [← List.getElem?_map, ← List.getElem?_map, htokens]
  rw [nth, nth, List.getD_eq_getElem?_getD, List.getD_eq_getElem?_getD]
  cases hn : s.tokens[n]? <;> cases hn' : s'.tokens[n]? <;> simp_all

theorem kindAfter_of_bare {ts us : List Token} (h : ts.map Token.bare = us.map Token.bare)
    {b : Option TokenKind} : kindAfter b ts = kindAfter b us := by
  have hkinds : ∀ (ts : List Token) (b : Option TokenKind),
      kindAfter b (ts.map Token.bare) = kindAfter b ts := by
    intro ts
    induction ts with
    | nil => exact fun _ => rfl
    | cons t ts ih => exact fun _ => ih _
  rw [← hkinds ts, h, hkinds us]

theorem toList_prepend (ts : List Token) (s : Stream) :
    (s.prepend ts).toList = ts ++ s.toList := by
  simp [toList, prepend]

theorem exists_toList (s : Stream) : ∃ us, s.toList = s.nth 0 :: us := by
  obtain ⟨tokens, last⟩ := s
  cases tokens with
  | nil => exact ⟨[], rfl⟩
  | cons t ts => exact ⟨ts ++ [last], rfl⟩

end Stream

namespace Arena

theorem Fresh.insert {a : Arena} (h : a.Fresh) (p : Option NodeId) : (a.insert p).2.Fresh := by
  intro id hid
  have hne : a.next ≠ id := Nat.ne_of_lt hid
  have hold := h id (Nat.le_of_succ_le hid)
  simpa [Arena.insert, Std.ExtTreeMap.getElem?_insert, hne] using hold

theorem Fresh.setParent {a : Arena} (h : a.Fresh) (p id : NodeId) : (a.setParent p id).Fresh := by
  intro x hx
  have hnext : (a.setParent p id).next = a.next := by
    unfold Arena.setParent
    split <;> rfl
  rw [hnext] at hx
  unfold Arena.setParent
  split
  next hid =>
    have hne : id ≠ x := by
      rintro rfl
      have hnone := h id hx
      simp [Arena.contains, ← Std.ExtTreeMap.isSome_getElem?_eq_contains, hnone] at hid
    have hold := h x hx
    simpa [Std.ExtTreeMap.getElem?_insert, hne] using hold
  next => exact h x hx

theorem Fresh.adopt {a : Arena} (h : a.Fresh) (p : NodeId) (ns : List Node) :
    (a.adopt p ns).Fresh := by
  induction ns generalizing a with
  | nil => exact h
  | cons n ns ih => exact ih (h.setParent p n.id)

end Arena

namespace Grammar

/-- All tokens of the text, those taken and those to come. -/
def State.whole (s : State) : Stream := s.upcoming.prepend s.taken.reverse

/-- The kind of the token taken last. -/
def State.behind (s : State) : Option TokenKind := Stream.kindAfter none s.taken.reverse

/-- How two runs are compared. -/
structure Pairing where
  /-- Behind tokens of these kinds one run may look at a comment that the other does not see. -/
  folds : Option TokenKind → Bool
  /-- The second text may hold comments that are not folded. -/
  comments : Bool
  /-- The tokens of the two texts belong together. -/
  Match : List Token → List Token → Prop
  /-- Behind a node of this sort in the first run, nothing is said of the second. -/
  Lost : Node → Prop
  folds_colon : folds (some .colon) = true
  folds_close : folds (some .closeComment) = true → ∀ b, folds b = true
  bare : ∀ {ts us}, Match ts us → ts.map Token.bare = us.map Token.bare
  touch : ∀ {ts us vs ws t u t' u'}, Match (ts ++ t :: u :: vs) (us ++ t' :: u' :: ws) →
    ts.length = us.length → t.touches u = t'.touches u'
  settle : ∀ {ts us} {s s' : Stream} (n : Nat), Match (ts ++ s.toList) (us ++ s'.toList) →
    ts.length = us.length → Match (ts ++ (s.settle n).toList) (us ++ (s'.settle n).toList)
  lost_child : ∀ {id kind span es m}, .node m ∈ es → Lost m → Lost ⟨id, kind, span, es⟩

/-- One of two runs: where it stands, with at most `m` tokens to come, the first of which are
`ts`; `comments` says whether its text may hold comments that are not folded. -/
structure Poised (q : Option TokenKind → Bool) (comments : Bool) (m : Nat) (ts : List Token)
    (s : State) : Prop where
  sound : s.Sound
  flat : FlatFrom false s.whole.tokens
  plain : comments = false → ∀ t ∈ s.whole.tokens, t.kind ≠ .openComment
  stable : Stream.Stable q none s.taken.reverse
  starts : s.upcoming.Starts ts
  bound : s.upcoming.length ≤ m

theorem State.settle_of_nil {s : State} (h : s.upcoming.tokens = []) (n : Nat) :
    s.settle n = s := by
  rw [State.settle, (Stream.settled_nil h).settle_eq]

theorem State.take_guard (s : State) : s.take.2.guard = s.guard ∧ s.take.2.limit = s.limit := by
  unfold State.take
  split <;> exact ⟨rfl, rfl⟩

namespace Poised

variable {q : Option TokenKind → Bool} {comments : Bool} {m : Nat} {ts us : List Token}
  {t : Token} {s : State}

theorem weaken (h : Poised q comments m ts s) (hus : us <+: ts) : Poised q comments m us s :=
  ⟨h.sound, h.flat, h.plain, h.stable,
    ⟨hus.trans h.starts.next, fun t ht => h.starts.settled t (hus.subset ht)⟩, h.bound⟩

theorem mono {k : Nat} (h : Poised q comments m ts s) (hk : m ≤ k) : Poised q comments k ts s :=
  ⟨h.sound, h.flat, h.plain, h.stable, h.starts, Nat.le_trans h.bound hk⟩

theorem whole_folded (h : Poised q comments m ts s) :
    s.whole.foldBehind q none = (s.upcoming.foldBehind q s.behind).prepend s.taken.reverse :=
  Stream.foldBehind_prepend h.stable _

theorem flat_upcoming (h : Poised q comments m ts s) :
    FlatFrom (insideAfter false s.taken.reverse) s.upcoming.tokens :=
  (flatFrom_append.mp h.flat).2

/-- Without comments there is nothing to fold. -/
theorem settle_plain (h : Poised q comments m ts s) (hplain : comments = false) (n : Nat) :
    s.settle n = s := by
  have hsettled : s.upcoming.Settled n := fun t ht =>
    h.plain hplain t (List.mem_append_right _ (List.mem_of_mem_take ht))
  rw [State.settle, hsettled.settle_eq]

theorem settle (h : Poised q comments m ts s) (n : Nat) : Poised q comments m ts (s.settle n) where
  sound := ⟨h.sound.upcoming.settle n, h.sound.place, h.sound.fresh⟩
  flat := flatFrom_append.mpr
    ⟨(flatFrom_append.mp h.flat).1, Stream.flatFrom_settle h.flat_upcoming n⟩
  plain hplain := by
    rw [h.settle_plain hplain n]
    exact h.plain hplain
  stable := h.stable
  starts := h.starts.settle n
  bound := Nat.le_trans (Stream.length_settle n s.upcoming) h.bound

/-- A token to be folded behind is followed by the same tokens however far one has looked. -/
theorem whole_settle_zero (h : Poised q comments m ts s) (hq : q s.behind = true) :
    (s.settle 0).whole.foldBehind q none = s.whole.foldBehind q none := by
  rw [(h.settle 0).whole_folded, h.whole_folded]
  exact congrArg (Stream.prepend s.taken.reverse) (Stream.foldBehind_foldFront hq s.upcoming)

theorem tokens (h : Poised q comments m (t :: ts) s) : ∃ us, s.upcoming.tokens = t :: us := by
  obtain ⟨us, hus⟩ := h.starts.next
  exact ⟨ts ++ us, hus.symm⟩

theorem spent (h : Poised q comments 0 ts s) : s.upcoming.tokens = [] :=
  List.length_eq_zero_iff.mp (Nat.le_zero.mp h.bound)

theorem pos (h : Poised q comments m (t :: ts) s) : 0 < m := by
  obtain ⟨us, hus⟩ := h.tokens
  have hbound := h.bound
  rw [Stream.length, hus, List.length_cons] at hbound
  omega

theorem kind_ne_eof (h : Poised q comments m (t :: ts) s) : t.kind ≠ .eof := by
  obtain ⟨us, hus⟩ := h.tokens
  exact h.sound.upcoming.kinds t (List.mem_append_right _ (by simp [hus]))

theorem whole_take {us : List Token} (h : s.upcoming.tokens = t :: us) :
    s.take.2.whole = s.whole := by
  rw [State.whole, State.whole, Stream.prepend, Stream.prepend]
  unfold State.take
  simp [h]

/-- A token that starts no comment to be folded is taken. -/
theorem takeRaw (h : Poised q comments m [] s) {us : List Token}
    (htokens : s.upcoming.tokens = t :: us)
    (hstable : ¬(t.kind = .openComment ∧ q s.behind = true)) :
    Poised q comments (m - 1) [] s.take.2 ∧ s.take.1 = t ∧ s.take.2.taken = t :: s.taken := by
  obtain ⟨hfirst, hrest, htook⟩ := Took.take h.sound htokens
  have htaken : s.take.2.taken = t :: s.taken := by simpa using htook.taken
  refine ⟨⟨htook.sound, ?_, ?_, ?_, Stream.starts_nil _, ?_⟩, hfirst, htaken⟩
  · rw [whole_take htokens]
    exact h.flat
  · rw [whole_take htokens]
    exact h.plain
  · rw [htaken, List.reverse_cons]
    exact Stream.stable_append.mpr ⟨h.stable, hstable, trivial⟩
  · have hbound := h.bound
    rw [Stream.length, htokens, List.length_cons] at hbound
    rw [Stream.length, hrest]
    omega

theorem unsettled (h : Poised q comments m ts s) (hopen : s.upcoming.head.kind = .openComment) :
    ¬s.upcoming.Settled 0 := by
  cases htokens : s.upcoming.tokens with
  | nil =>
    have hlast := h.sound.upcoming.last_kind
    rw [Stream.head, htokens, List.headD_nil, hlast] at hopen
    cases hopen
  | cons t us =>
    rw [Stream.head, htokens, List.headD_cons] at hopen
    exact fun hsettled => hsettled t (by simp [htokens]) hopen

/-- A comment that is not folded there is opened. -/
theorem takeOpen (h : Poised q comments m [] s) (hopen : s.upcoming.head.kind = .openComment)
    (hbehind : q s.behind = false) : Poised q comments (m - 1) [] s.take.2 ∧
      s.take.1.kind = .openComment ∧ s.take.2.taken = s.take.1 :: s.taken ∧
      s.take.2.whole = s.whole := by
  cases htokens : s.upcoming.tokens with
  | nil => exact absurd (Stream.settled_nil htokens) (h.unsettled hopen)
  | cons t us =>
    obtain ⟨htake, hfirst, htaken⟩ := h.takeRaw htokens (by simp [hbehind])
    rw [Stream.head, htokens] at hopen
    exact ⟨htake, hfirst ▸ hopen, hfirst ▸ htaken, whole_take htokens⟩

theorem take (h : Poised q comments m (t :: ts) s) :
    Poised q comments (m - 1) ts s.take.2 ∧ s.take.1 = t ∧ s.take.2.taken = t :: s.taken := by
  obtain ⟨us, hus⟩ := h.starts.next
  have htokens : s.upcoming.tokens = t :: (ts ++ us) := hus.symm
  have hopen : t.kind ≠ .openComment := h.starts.settled t List.mem_cons_self
  obtain ⟨htake, hfirst, htaken⟩ :=
    (h.weaken List.nil_prefix).takeRaw htokens fun ht => hopen ht.1
  refine ⟨⟨htake.sound, htake.flat, htake.plain, htake.stable, ?_, htake.bound⟩, hfirst, htaken⟩
  obtain ⟨-, hrest, -⟩ := Took.take h.sound htokens
  rw [Stream.eq_of_tokens hrest]
  have hstarts := h.starts
  rw [Stream.eq_of_tokens htokens] at hstarts
  exact ⟨by simp, hstarts.of_cons.settled⟩

theorem setGuard (h : Poised q comments m ts s) (guard : Guard) (refused : List DepthError) :
    Poised q comments m ts { s with guard, refused } :=
  ⟨⟨h.sound.upcoming, h.sound.place, h.sound.fresh⟩, h.flat, h.plain, h.stable, h.starts, h.bound⟩

theorem node (h : Poised q comments m ts s) (kind : NodeKind) (es : List Element) :
    Poised q comments m ts ((Grammar.node kind es).run s).2 := by
  have hfresh : ((Grammar.node kind es).run s).2.arena.Fresh :=
    (h.sound.fresh.insert none).adopt _ _
  exact ⟨⟨h.sound.upcoming, h.sound.place, hfresh⟩, h.flat, h.plain, h.stable, h.starts, h.bound⟩

/-- What was taken since an earlier state is put back. -/
theorem rewind {mark : State} {es : List Element} {k : Nat} (h : Poised q comments k [] s)
    (hmark : Poised q comments m ts mark) (htook : Took mark es s) :
    Poised q comments m ts (mark.rewind s) ∧ (mark.rewind s).whole = s.whole := by
  have hback := htook.rewind
  have hdrop : s.taken.take (s.taken.length - mark.taken.length) =
      (Element.tokensOf es).reverse := by simp [htook.taken]
  have hwhole : (mark.rewind s).whole = s.whole := by
    simp only [State.whole, State.rewind, Stream.prepend, hdrop, List.reverse_reverse]
    simp only [htook.taken, List.reverse_append, List.reverse_reverse, List.append_assoc]
  refine ⟨⟨hback.sound, hwhole ▸ h.flat, hwhole ▸ h.plain, hmark.stable,
    ⟨?_, hmark.starts.settled⟩, ?_⟩, hwhole⟩
  · simpa using hback.steady ts hmark.starts
  · have hshorter := hback.shorter
    have hbound := hmark.bound
    simp only [Element.tokensOf_nil, List.length_nil] at hshorter
    omega

end Poised

end Grammar

end CssTree
