import CssTree.Grammar.Value
import CssTree.Proofs.Grammar.Logic

namespace CssTree

namespace Grammar

variable {mark : State} {es : List Element} {α β : Type}

/-- The elements of captured tokens. -/
theorem balancedFrom_keeps (expected : List TokenKind) (n : Nat) (es : List Element) :
    Keeps (Reads mark es []) (balancedFrom expected n) fun ts =>
      Reads mark (es ++ ts.map .token) [] := by
  induction n generalizing expected es with
  | zero => exact Keeps.ret fun s hs => by simpa using hs
  | succ n ih =>
    refine Keeps.peekKind ?_ fun t ht => ?_
    · exact Keeps.ret fun s hs => by simpa using hs.1
    · rw [if_neg ht]
      refine Keeps.bump ?_
      dsimp only
      split
      next => exact Keeps.ret fun s hs => hs
      next =>
        exact Keeps.bind (ih _ _) fun ts => Keeps.ret fun s hs => by simpa using hs

/-- At least the token that is known to come next is captured. -/
theorem balancedFrom_known (expected : List TokenKind) {n : Nat} (hn : 0 < n) {t : Token} :
    Keeps (Reads mark es [t]) (balancedFrom expected n) fun ts s =>
      Reads mark (es ++ ts.map .token) [] s ∧ ts ≠ [] := by
  cases n with
  | zero => exact absurd hn (Nat.lt_irrefl 0)
  | succ n =>
    refine Keeps.of_kind fun ht => Keeps.peekKind_known ?_
    rw [if_neg ht]
    refine Keeps.bump ?_
    dsimp only
    split
    next => exact Keeps.ret fun s hs => ⟨hs, by simp⟩
    next =>
      exact Keeps.bind (balancedFrom_keeps _ _ _) fun ts =>
        Keeps.ret fun s hs => ⟨by simpa using hs, by simp⟩

theorem Reads.length_pos {s : State} {t : Token} {ts : List Token}
    (h : Reads mark es (t :: ts) s) : 0 < s.upcoming.length :=
  Nat.lt_of_lt_of_le (Nat.zero_lt_succ ts.length) h.2.next.length_le

theorem balanced_known {t : Token} :
    Keeps (Reads mark es [t]) balanced fun ts s =>
      Reads mark (es ++ ts.map .token) [] s ∧ ts ≠ [] :=
  fun s hs => balancedFrom_known [] hs.length_pos s hs

theorem captureTokens_keeps (r : Recovery) (n : Nat) (es : List Element) :
    Keeps (Reads mark es []) (captureTokens r n) fun ts =>
      Reads mark (es ++ ts.map .token) [] := by
  induction n generalizing es with
  | zero => exact Keeps.ret fun s hs => by simpa using hs
  | succ n ih =>
    refine Keeps.peekKind ?_ fun t ht => ?_
    · exact Keeps.ret fun s hs => by simpa using hs.1
    · split
      next => exact Keeps.ret fun s hs => by simpa using hs.nil
      next =>
        split
        next => exact Keeps.bump (Keeps.ret fun s hs => hs)
        next =>
          refine Keeps.bind (balanced_known.post fun _ _ h => h.1) fun ts => ?_
          split
          next => exact Keeps.ret fun s hs => hs
          next => exact Keeps.bind (ih _) fun us => Keeps.ret fun s hs => by simpa using hs

/-- At least the token that is known to come next is captured, unless capture stops before it. -/
theorem captureTokens_known {r : Recovery} {n : Nat} (hn : 0 < n) {t : Token}
    (ht : t.kind ∉ r.before) :
    Keeps (Reads mark es [t]) (captureTokens r n) fun ts s =>
      Reads mark (es ++ ts.map .token) [] s ∧ ts ≠ [] := by
  cases n with
  | zero => exact absurd hn (Nat.lt_irrefl 0)
  | succ n =>
    refine Keeps.of_kind fun hkind => Keeps.peekKind_known ?_
    rw [if_neg (by simp [hkind, ht])]
    split
    next => exact Keeps.bump (Keeps.ret fun s hs => ⟨hs, by simp⟩)
    next =>
      refine Keeps.seq balanced_known fun ts hts => ?_
      split
      next => exact Keeps.ret fun s hs => ⟨hs, hts⟩
      next =>
        exact Keeps.bind (captureTokens_keeps r n _) fun us =>
          Keeps.ret fun s hs => ⟨by simpa using hs, by simp [hts]⟩

/-- Captured tokens go into a node. -/
theorem errorNode_keeps {ts : List Token} {us : List Token} :
    Keeps (Reads mark (es ++ ts.map .token) us) (errorNode ts) fun n s =>
      Reads mark (es ++ [.node n]) us s ∧ n.elements = ts.map .token := node_keeps_plain rfl

theorem recover_keeps (r : Recovery) :
    Keeps (Reads mark es []) (recover r) fun n => Reads mark (es ++ [.node n]) [] := fun s hs =>
  Keeps.bind (captureTokens_keeps r s.upcoming.length es)
    (fun _ => errorNode_keeps.post fun _ _ h => h.1) s hs

theorem tokens_ne_nil_of_elements {n : Node} {ts : List Token} (h : n.elements = ts.map .token)
    (hts : ts ≠ []) : n.tokens ≠ [] := by
  rw [← n.tokens_eq, h]
  simpa using hts

theorem recover_known {r : Recovery} {t : Token} (ht : t.kind ∉ r.before) :
    Keeps (Reads mark es [t]) (recover r) fun n s =>
      Reads mark (es ++ [.node n]) [] s ∧ n.tokens ≠ [] := by
  intro s hs
  have hrun : Keeps (Reads mark es [t]) (captureTokens r s.upcoming.length >>= errorNode)
      fun n s => Reads mark (es ++ [.node n]) [] s ∧ n.tokens ≠ [] :=
    Keeps.seq (captureTokens_known hs.length_pos ht) fun _ hts =>
      errorNode_keeps.post fun _ _ h => ⟨h.1, tokens_ne_nil_of_elements h.2 hts⟩
  exact hrun s hs

theorem recoverBlock_known {t : Token} :
    Keeps (Reads mark es [t]) recoverBlock fun n s =>
      Reads mark (es ++ [.node n]) [] s ∧ n.tokens ≠ [] :=
  Keeps.seq balanced_known fun _ hts =>
    errorNode_keeps.post fun _ _ h => ⟨h.1, tokens_ne_nil_of_elements h.2 hts⟩

/-- The mark of an important declaration is two tokens, which are known once they are seen. -/
theorem Keeps.atImportant {f : Bool → Parser β} {Q : β → State → Prop}
    (htrue : ∀ t u, Keeps (Reads mark es [t, u]) (f true) Q)
    (hfalse : Keeps (Reads mark es []) (f false) Q) :
    Keeps (Reads mark es []) (Grammar.atImportant >>= f) Q := by
  have hword : ∀ t, Keeps (Reads mark es [t]) (Grammar.nth 1 >>= fun u =>
      f (u.isIdent ['i', 'm', 'p', 'o', 'r', 't', 'a', 'n', 't'])) Q := by
    intro t
    refine Keeps.nth (fun u hu => ?_) fun u hu => ?_
    · have hident : u.isIdent ['i', 'm', 'p', 'o', 'r', 't', 'a', 'n', 't'] = false := by
        simp [Token.isIdent, hu]
      rw [hident]
      exact hfalse.pre fun s hs => hs.nil
    · cases u.isIdent ['i', 'm', 'p', 'o', 'r', 't', 'a', 'n', 't'] with
      | true => exact htrue t u
      | false => exact hfalse.pre fun s hs => hs.nil
  exact Keeps.atDelim (f := fun b => (if b = true then Grammar.nth 1 >>= fun u =>
      pure (u.isIdent ['i', 'm', 'p', 'o', 'r', 't', 'a', 'n', 't']) else pure false) >>= f)
    (fun t _ => hword t) hfalse

/-- Looking for the mark of an important declaration leaves the next token as it is. -/
theorem atImportant_known {t : Token} :
    Keeps (Reads mark es [t]) Grammar.atImportant fun _ => Reads mark es [t] := by
  refine Keeps.atDelim_known ?_
  split
  next =>
    refine Keeps.nth (fun u _ => ?_) fun u _ => ?_
    · exact Keeps.ret fun s hs => hs
    · exact Keeps.ret fun s hs => hs.weaken (List.prefix_append [t] [u])
  next => exact Keeps.ret fun s hs => hs

/-- A value of a list, or the end of the list. -/
theorem valueItem_tries {component : Parser Node} (stop : List TokenKind) (important : Bool)
    (hcomponent : ∀ es t, Keeps (Reads mark es [t]) component fun n s =>
      Reads mark (es ++ [.node n]) [] s ∧ n.tokens ≠ []) (es : List Element) :
    Tries (Reads mark es []) (valueItem component stop important)
      (fun n s => Reads mark (es ++ [.node n]) [] s ∧ n.tokens ≠ []) (Reads mark es []) := by
  refine Tries.peekKind (Tries.fail fun s hs => hs) fun t ht => ?_
  split
  next => exact Tries.fail fun s hs => hs.nil
  next =>
    have hlast : Tries (Reads mark es [t]) (liftM component)
        (fun n s => Reads mark (es ++ [.node n]) [] s ∧ n.tokens ≠ []) (Reads mark es []) :=
      Tries.run (hcomponent es t)
    split
    next =>
      refine Tries.call atImportant_known fun b => ?_
      split
      next => exact Tries.fail fun s hs => hs.nil
      next => exact hlast
    next => exact hlast

theorem valuesOf_keeps {component : Parser Node} (stop : List TokenKind) (important : Bool)
    (hcomponent : ∀ es t, Keeps (Reads mark es [t]) component fun n s =>
      Reads mark (es ++ [.node n]) [] s ∧ n.tokens ≠ []) :
    Keeps (Reads mark es []) (valuesOf component stop important) fun n =>
      Reads mark (es ++ [.node n]) [] := by
  refine Keeps.bind (many_keeps (fun n => [.node n]) (fun es =>
    (valueItem_tries stop important hcomponent es).post fun _ _ h => h.1) es) fun ns => ?_
  rw [← List.map_eq_flatMap]
  exact (node_keeps_plain rfl).post fun _ _ h => h.1

theorem tokens_ne_nil_of_mem {n : Node} {t : Token} {fs : List Element} (h : n.elements = fs)
    (ht : .token t ∈ fs) : n.tokens ≠ [] := by
  obtain ⟨as, bs, rfl⟩ := List.append_of_mem ht
  rw [← n.tokens_eq, h]
  simp

theorem tokens_ne_nil_of_token {n : Node} {t : Token} {fs : List Element}
    (h : n.elements = .token t :: fs) : n.tokens ≠ [] :=
  tokens_ne_nil_of_mem h List.mem_cons_self

/-- A node is made of elements with a token among them. -/
theorem filled_tries {F : State → Prop} {fs gs : List Element} {kind : NodeKind} {t : Token}
    (hes : es = fs ++ gs) (ht : .token t ∈ gs) (hlist : kind.listShape? = none := by rfl)
    (hkind : kind ≠ .declaration := by decide) :
    Tries (Reads mark es []) (liftM (node kind gs))
      (fun n s => Reads mark (fs ++ [.node n]) [] s ∧ n.tokens ≠ []) F :=
  Tries.run ((node_keeps_plain hes hlist hkind).post fun _ _ h =>
    ⟨h.1, tokens_ne_nil_of_mem h.2 ht⟩)

theorem closing?_ne_eof {kind close : TokenKind} (h : kind.closing? = some close) :
    close ≠ .eof := by
  rintro rfl
  cases kind <;> simp [TokenKind.closing?] at h

theorem preservedToken_known (es : List Element) (t : Token) :
    Keeps (Reads mark es [t]) (Grammar.bump >>= fun t => node .preservedToken [.token t])
      fun n s => Reads mark (es ++ [.node n]) [] s ∧ n.tokens ≠ [] :=
  Keeps.bump ((node_keeps_plain rfl).post fun _ _ h => ⟨h.1, tokens_ne_nil_of_token h.2⟩)

/-- A component value takes the token that is known to come next. -/
theorem componentWithin_known (depth : Nat) (es : List Element) (t : Token) :
    Keeps (Reads mark es [t]) (componentWithin depth) fun n s =>
      Reads mark (es ++ [.node n]) [] s ∧ n.tokens ≠ [] := by
  induction depth generalizing es t with
  | zero => exact preservedToken_known es t
  | succ depth ih =>
    refine Keeps.peekKind_known ?_
    split
    next => exact preservedToken_known es t
    next close hclose =>
      refine Keeps.bind enter_keeps fun entered => ?_
      split
      next =>
        refine Keeps.bump (Keeps.bind (valuesOf_keeps _ _ ih) fun values => ?_)
        refine Keeps.seq (eat_keeps (closing?_ne_eof hclose)) fun closing _ => ?_
        refine Keeps.bind exit_keeps fun _ => ?_
        refine (node_keeps_plain (by simp) ?_ ?_).post fun _ _ h =>
          ⟨h.1, tokens_ne_nil_of_token h.2⟩
        · split <;> rfl
        · split <;> decide
      next => exact recoverBlock_known

theorem component_known {t : Token} :
    Keeps (Reads mark es [t]) component fun n s =>
      Reads mark (es ++ [.node n]) [] s ∧ n.tokens ≠ [] :=
  fun s hs => componentWithin_known s.upcoming.length es t s hs

theorem values_keeps (stop : List TokenKind) :
    Keeps (Reads mark es []) (values stop) fun n => Reads mark (es ++ [.node n]) [] :=
  valuesOf_keeps stop false fun _ _ => component_known

theorem declarationValue_keeps (stop : List TokenKind) :
    Keeps (Reads mark es []) (declarationValue stop) fun n => Reads mark (es ++ [.node n]) [] :=
  valuesOf_keeps stop true fun _ _ => component_known

theorem important_keeps :
    Keeps (Reads mark es []) important fun o => Reads mark (es ++ Element.ofNode? o) [] := by
  refine Keeps.atImportant (fun t u => ?_) ?_
  · refine Keeps.bump (Keeps.bump ?_)
    refine Keeps.bind (node_keeps_plain (List.append_assoc es [.token t] [.token u])) fun n =>
      Keeps.ret fun s hs => ?_
    simpa using hs.1
  · exact Keeps.ret fun s hs => by simpa using hs

end Grammar

end CssTree
