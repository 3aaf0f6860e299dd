import CssTree.Proofs.Nesting
import CssTree.Proofs.Grammar.Value
import CssTree.Proofs.Syntax.At

namespace CssTree

namespace Node

variable {n : Node} {k : Nat}

theorem bare_eq (n : Node) : n.bare = ⟨0, n.kind, default, Element.bareAll n.elements⟩ := by
  cases n
  rfl

/-- The nodes below are free of errors. -/
theorem containsError_eq_false : n.containsError = false ↔
    n.kind ≠ .error ∧ ∀ m, .node m ∈ n.elements → m.containsError = false := by
  have hall : ∀ es : List Element, (Element.descendantsOf es).any isError = false ↔
      ∀ m, .node m ∈ es → m.containsError = false := by
    intro es
    induction es with
    | nil => simp
    | cons e es ih =>
      cases e with
      | token t => simp [ih]
      | node m => simp [ih, containsError]
  obtain ⟨id, kind, span, es⟩ := n
  rw [containsError, descendants_mk, List.any_cons, Bool.or_eq_false_iff, hall]
  simp [isError]

theorem NestsWithin.inside (h : n.NestsWithin k) (hn : n.nests = true) :
    ∃ j, k = j + 1 ∧ Element.AllNestWithin j n.elements := by
  have hself := h [n] (.here n)
  rw [List.countP_cons_of_pos hn] at hself
  refine ⟨k - 1, by omega, fun m hm path hpath => ?_⟩
  have hdown := h (n :: path) (.down (mem_children.mpr hm) hpath)
  rw [List.countP_cons_of_pos hn] at hdown
  omega

theorem NestsWithin.below (h : n.NestsWithin k) : Element.AllNestWithin k n.elements := by
  intro m hm path hpath
  have hdown := h (n :: path) (.down (mem_children.mpr hm) hpath)
  rw [List.countP_cons] at hdown
  omega

end Node

/-- The tokens of nodes one after another. -/
def Node.tokensOf (ns : List Node) : List Token := ns.flatMap Node.tokens

namespace Node

@[simp] theorem tokensOf_nil : tokensOf [] = [] := rfl

@[simp] theorem tokensOf_cons (n : Node) (ns : List Node) :
    tokensOf (n :: ns) = n.tokens ++ tokensOf ns := rfl

@[simp] theorem tokensOf_append (ns ms : List Node) :
    tokensOf (ns ++ ms) = tokensOf ns ++ tokensOf ms := by simp [tokensOf]

@[simp] theorem tokensOf_nodes (ns : List Node) :
    Element.tokensOf (ns.map .node) = tokensOf ns := by
  induction ns with
  | nil => rfl
  | cons n ns ih => simp [ih]

end Node

namespace Syntax

open Token Grammar

/-- The first two of some tokens are the mark of an important declaration. -/
def marksImportant : List Token → Bool
  | t :: u :: _ => t.isDelim '!' && u.isIdent ['i', 'm', 'p', 'o', 'r', 't', 'a', 'n', 't']
  | _ => false

/-- A list of values ends in front of these tokens. -/
def Stops (stop : List TokenKind) (important : Bool) (ts : List Token) : Prop :=
  headKind ts = .eof ∨ headKind ts = .closeBrace ∨ headKind ts ∈ stop ∨
    important = true ∧ marksImportant ts = true

/-- The kind of node for what stands in brackets of a kind. -/
def blockKind (opening : TokenKind) : NodeKind :=
  if opening = .function then .functionValue else .blockValue

/-- A component value with a token of the kind `next` behind it. -/
inductive Component : TokenKind → Node → Prop
  | token {next : TokenKind} {id : NodeId} {span : Span} {t : Token} (h : t.kind.closing? = none)
      (hend : t.kind ≠ .eof) : Component next ⟨id, .preservedToken, span, [.token t]⟩
  | closed {next : TokenKind} {id vid : NodeId} {span vspan : Span} {opening closing : Token}
      {ns : List Node} (h : opening.kind.closing? = some closing.kind)
      (hns : ∀ xs n ys, ns = xs ++ n :: ys →
        Component (kindBefore (Node.tokensOf ys) closing.kind) n)
      (hgo : ∀ xs n ys, ns = xs ++ n :: ys →
        ¬Stops [closing.kind] false (n.tokens ++ Node.tokensOf ys)) :
      Component next ⟨id, blockKind opening.kind, span,
        [.token opening, .node ⟨vid, .valueList, vspan, ns.map .node⟩, .token closing]⟩
  /-- Brackets stay open at the end of the text, and in front of a brace that closes a block. -/
  | unclosed {next : TokenKind} {id vid : NodeId} {span vspan : Span} {opening : Token}
      {close : TokenKind} {ns : List Node} (h : opening.kind.closing? = some close)
      (hnext : next = .eof ∨ next = .closeBrace ∧ close ≠ .closeBrace)
      (hns : ∀ xs n ys, ns = xs ++ n :: ys → Component (kindBefore (Node.tokensOf ys) next) n)
      (hgo : ∀ xs n ys, ns = xs ++ n :: ys →
        ¬Stops [close] false (n.tokens ++ Node.tokensOf ys)) :
      Component next ⟨id, blockKind opening.kind, span,
        [.token opening, .node ⟨vid, .valueList, vspan, ns.map .node⟩]⟩

/-- Values one after another with a token of the kind `next` behind them. -/
structure Components (stop : List TokenKind) (important : Bool) (next : TokenKind)
    (ns : List Node) : Prop where
  component : ∀ xs n ys, ns = xs ++ n :: ys → Component (kindBefore (Node.tokensOf ys) next) n
  goes : ∀ xs n ys, ns = xs ++ n :: ys → ¬Stops stop important (n.tokens ++ Node.tokensOf ys)

/-- A list of values with a token of the kind `next` behind it. -/
structure Values (stop : List TokenKind) (important : Bool) (next : TokenKind) (v : Node) :
    Prop where
  kind : v.kind = .valueList
  nodes : ∃ ns, v.elements = ns.map .node ∧ Components stop important next ns

section Stops

variable {stop : List TokenKind} {important : Bool} {t u : Token} {ts us rest : List Token}

theorem marksImportant_of_bare (h : ts.map Token.bare = us.map Token.bare) :
    marksImportant ts = marksImportant us := by
  match ts, us with
  | [], us =>
    obtain rfl : us = [] := by simpa using h.symm
    rfl
  | [t], us =>
    obtain ⟨u, rfl⟩ : ∃ u, us = [u] := List.length_eq_one_iff.mp (by simpa using congrArg List.length h.symm)
    rfl
  | t :: t' :: ts, [] => simp at h
  | t :: t' :: ts, [u] => simp at h
  | t :: t' :: ts, u :: u' :: us =>
    simp only [List.map_cons, List.cons.injEq] at h
    rw [marksImportant, marksImportant, isDelim_of_bare h.1, isIdent_of_bare h.2.1]

theorem headKind_of_bare (h : ts.map Token.bare = us.map Token.bare) : headKind ts = headKind us := by
  cases ts with
  | nil =>
    obtain rfl : us = [] := by simpa using h.symm
    rfl
  | cons t ts =>
    cases us with
    | nil => simp at h
    | cons u us => exact kind_of_bare (List.cons.inj h).1

theorem stops_iff_of_bare (h : ts.map Token.bare = us.map Token.bare) :
    Stops stop important ts ↔ Stops stop important us := by
  rw [Stops, Stops, headKind_of_bare h, marksImportant_of_bare h]

/-- Only a word could complete the mark of an important declaration. -/
theorem stops_append (hts : ts ≠ []) (hrest : headKind rest ≠ .ident) :
    Stops stop important (ts ++ rest) ↔ Stops stop important ts := by
  have hmarks : marksImportant (ts ++ rest) = marksImportant ts := by
    match ts with
    | [] => exact absurd rfl hts
    | [t] =>
      cases rest with
      | nil => rfl
      | cons u us =>
        have hword : u.isIdent ['i', 'm', 'p', 'o', 'r', 't', 'a', 'n', 't'] = false := by
          have hkind : u.kind ≠ .ident := hrest
          simp [isIdent, hkind]
        simp [marksImportant, hword]
    | t :: t' :: ts => rfl
  rw [Stops, Stops, headKind_append hts, hmarks]

end Stops

section Reading

variable {d k : Nat} {stop : List TokenKind} {important : Bool} {t : Token}
  {ts us rest : List Token}

section Steps

variable {β : Type} {Q : β → State → Prop} {F : State → Prop}

theorem Keeps.atImportant_at {f : Bool → Parser β} (hf : Keeps (At d k ts) (f (marksImportant ts)) Q) :
    Keeps (At d k ts) (Grammar.atImportant >>= f) Q := by
  refine Keeps.of_at fun t us hts hend => ?_
  subst hts
  have hat : (Grammar.atImportant >>= f) = (Grammar.atDelim '!' >>= fun b => (if b = true then
      Grammar.nth 1 >>= fun u => pure (u.isIdent ['i', 'm', 'p', 'o', 'r', 't', 'a', 'n', 't'])
      else pure false) >>= f) := by
    simp only [Grammar.atImportant, bind_assoc]
  rw [hat]
  refine Keeps.atDelim_at ?_
  cases hmark : t.isDelim '!' with
  | false =>
    have hnone : marksImportant (t :: us) = false := by
      cases us <;> simp [marksImportant, hmark]
    rw [hnone] at hf
    exact hf
  | true =>
    have hkind : t.kind ≠ .eof := fun heof => by simp [isDelim_eof heof] at hmark
    obtain ⟨u, us, rfl⟩ := List.exists_cons_of_ne_nil fun hnil => hkind (hend.mpr hnil)
    rw [if_pos rfl, bind_assoc]
    refine Keeps.nth_at (show (t :: u :: us)[1]? = some u from rfl) ?_
    have hsome : marksImportant (t :: u :: us) =
        u.isIdent ['i', 'm', 'p', 'o', 'r', 't', 'a', 'n', 't'] := by
      rw [marksImportant, hmark, Bool.true_and]
    rw [hsome] at hf
    exact hf

theorem Tries.atImportant_at {f : Bool → Attempt β}
    (hf : Tries (At d k ts) (f (marksImportant ts)) Q F) :
    Tries (At d k ts) (liftM Grammar.atImportant >>= f) Q F := Keeps.atImportant_at hf

/-- A list of values ends or goes on. -/
theorem valueItem_at {component : Parser Node} {Q : Node → State → Prop}
    (hstop : Stops stop important ts → ∀ s, At d k ts s → F s)
    (hgo : ¬Stops stop important ts → Keeps (At d k ts) component Q) :
    Tries (At d k ts) (valueItem component stop important) Q F := by
  refine Tries.of_at fun t us hts _ => ?_
  subst hts
  refine Tries.peekKind_at ?_
  by_cases hend : t.kind = .eof ∨ t.kind = .closeBrace ∨ t.kind ∈ stop
  · have hstops : Stops stop important (t :: us) := by
      rcases hend with h | h | h
      · exact Or.inl h
      · exact Or.inr (Or.inl h)
      · exact Or.inr (Or.inr (Or.inl h))
    have hif : (t.kind = .eof || t.kind = .closeBrace || t.kind ∈ stop) = true := by
      simpa [or_assoc] using hend
    rw [if_pos hif]
    exact Tries.fail (hstop hstops)
  · have hif : ¬(t.kind = .eof || t.kind = .closeBrace || t.kind ∈ stop) = true := by
      simpa [or_assoc] using hend
    have hiff : Stops stop important (t :: us) ↔
        important = true ∧ marksImportant (t :: us) = true := by
      simp only [not_or] at hend
      simp [Stops, hend]
    rw [if_neg hif]
    cases important with
    | false => exact Tries.run (hgo (by simp [hiff]))
    | true =>
      rw [if_pos rfl]
      refine Tries.atImportant_at ?_
      cases hmark : marksImportant (t :: us) with
      | true => exact Tries.fail (hstop (hiff.mpr ⟨rfl, hmark⟩))
      | false => exact Tries.run (hgo (by simp [hiff, hmark]))

end Steps

/-- From tokens that spell some nodes, these are read one after another. -/
theorem collect_gives {item : Attempt Node} {ns : List Node} {n : Nat} (hn : ns.length ≤ n)
    (hitem : ∀ xs m ys, ns = xs ++ m :: ys → ∀ us vs, Spells m.tokens us →
      Spells (Node.tokensOf ys) vs → Tries (At d k (us ++ (vs ++ rest))) item
        (fun m' s => At d k (vs ++ rest) s ∧ m'.bare = m.bare) fun _ => False)
    (hend : Tries (At d k rest) item (fun _ _ => False) (At d k rest))
    (hts : Spells (Node.tokensOf ns) ts) :
    Keeps (At d k (ts ++ rest)) (collect item n) fun ms s =>
      At d k rest s ∧ ms.map Node.bare = ns.map Node.bare := by
  induction ns generalizing n ts with
  | nil =>
    obtain rfl := hts.eq_nil
    cases n with
    | zero => exact Keeps.ret fun s hs => ⟨hs, rfl⟩
    | succ n =>
      refine Keeps.bind hend fun r => ?_
      cases r with
      | none => exact Keeps.ret fun s hs => ⟨hs, rfl⟩
      | some a => exact fun s hs => hs.elim
  | cons m ns ih =>
    obtain ⟨us, vs, rfl, hus, hvs⟩ := hts.exists_append
    cases n with
    | zero => simp at hn
    | succ n =>
      rw [List.append_assoc]
      refine Keeps.bind (hitem [] m ns rfl us vs hus hvs) fun r => ?_
      cases r with
      | none => exact fun s hs => hs.elim
      | some m' =>
        have hrest : Keeps (At d k (vs ++ rest)) (collect item n) fun ms s =>
            At d k rest s ∧ ms.map Node.bare = ns.map Node.bare :=
          ih (by simpa using hn)
            (fun xs m' ys h => hitem (m :: xs) m' ys (by rw [h, List.cons_append])) hvs
        intro s ⟨hs, hm⟩
        have hms := hrest s hs
        exact ⟨hms.1, congrArg₂ List.cons hm hms.2⟩

/-- Lists of values are read if their values are. -/
theorem valuesOf_gives {component : Parser Node} {ns : List Node}
    (hitem : ∀ xs m ys, ns = xs ++ m :: ys → ∀ us vs, Spells m.tokens us →
      Spells (Node.tokensOf ys) vs → Keeps (At d k (us ++ (vs ++ rest))) component
        fun m' s => At d k (vs ++ rest) s ∧ m'.bare = m.bare)
    (hgo : ∀ xs m ys, ns = xs ++ m :: ys → ¬Stops stop important (m.tokens ++ Node.tokensOf ys))
    (hne : ∀ m ∈ ns, m.tokens ≠ []) (hrest : rest ≠ []) (hword : headKind rest ≠ .ident)
    (hstop : Stops stop important rest) (hts : Spells (Node.tokensOf ns) ts) :
    Keeps (At d k (ts ++ rest)) (valuesOf component stop important) fun v s =>
      At d k rest s ∧ v.bare = ⟨0, .valueList, default, (ns.map Node.bare).map .node⟩ := by
  have hlength : ns.length ≤ ts.length := by
    rw [← hts.length_eq]
    clear hts hitem hgo
    induction ns with
    | nil => exact Nat.zero_le _
    | cons m ns ih =>
      have hpos := List.length_pos_iff.mpr (hne m List.mem_cons_self)
      have hless := ih fun m hm => hne m (List.mem_cons_of_mem _ hm)
      rw [Node.tokensOf_cons, List.length_append, List.length_cons]
      omega
  refine Keeps.seq (R := fun _ => At d k rest) (φ := fun ms => ms.map Node.bare = ns.map Node.bare)
    ?_ fun ms hms => ?_
  · refine Keeps.length_at fun n hn => collect_gives ?_ ?_ ?_ hts
    · have hpos := List.length_pos_iff.mpr hrest
      rw [List.length_append] at hn
      omega
    · intro xs m ys hsplit us vs hus hvs
      refine valueItem_at (fun hstops => ?_) fun _ => hitem xs m ys hsplit us vs hus hvs
      refine absurd hstops ?_
      have hlast : us ++ vs ≠ [] := by
        have hm : m.tokens ≠ [] := hne m (by rw [hsplit]; simp)
        intro hnil
        rw [(List.append_eq_nil_iff.mp hnil).1] at hus
        exact hm hus.symm.eq_nil
      have hbare : (us ++ vs).map Token.bare = (m.tokens ++ Node.tokensOf ys).map Token.bare := by
        rw [List.map_append, List.map_append, hus.bare, hvs.bare]
      rw [← List.append_assoc, stops_append hlast hword, stops_iff_of_bare hbare]
      exact hgo xs m ys hsplit
    · exact valueItem_at (fun _ s hs => hs) fun hgo => absurd hstop hgo
  · refine (node_at _ _).post fun v s hv => ⟨hv.1, ?_⟩
    rw [Node.bare_eq, hv.2.1, hv.2.2, Element.bareAll_nodes, hms]

theorem opening_ne_eof {kind close : TokenKind} (h : kind.closing? = some close) : kind ≠ .eof := by
  rintro rfl
  cases h

theorem closing_ne_ident {kind close : TokenKind} (h : kind.closing? = some close) :
    close ≠ .ident := by
  rintro rfl
  cases kind <;> cases h

theorem nests_block {opening : TokenKind} {id : NodeId} {span : Span} {es : List Element} :
    (Node.mk id (blockKind opening) span es).nests = true := by
  unfold blockKind
  split <;> rfl

namespace Component

variable {next : TokenKind} {n : Node} {depth : Nat}

theorem tokens_ne_nil (h : Component next n) : n.tokens ≠ [] := by cases h <;> simp

/-- What stands in brackets is read, up to where they close or what is around them does. -/
theorem values_gives {close : TokenKind} {ns : List Node} {rest : List Token}
    (hns : ∀ xs n ys, ns = xs ++ n :: ys → ∀ {d : Nat} {us vs : List Token}, Spells n.tokens us →
      headKind vs = kindBefore (Node.tokensOf ys) (headKind rest) → vs ≠ [] → us.length ≤ depth →
        Keeps (At d k (us ++ vs)) (componentWithin depth) fun m s => At d k vs s ∧ m.bare = n.bare)
    (hne : ∀ xs n ys, ns = xs ++ n :: ys → n.tokens ≠ [])
    (hgo : ∀ xs n ys, ns = xs ++ n :: ys → ¬Stops [close] false (n.tokens ++ Node.tokensOf ys))
    (hstop : Stops [close] false rest) (hrest : rest ≠ []) (hword : headKind rest ≠ .ident)
    (hts : Spells (Node.tokensOf ns) ts) (hdepth : ts.length ≤ depth) :
    Keeps (At d k (ts ++ rest)) (valuesOf (componentWithin depth) [close] false) fun v s =>
      At d k rest s ∧ v.bare = ⟨0, .valueList, default, (ns.map Node.bare).map .node⟩ := by
  refine valuesOf_gives (fun xs m ys hsplit us vs hus hvs => ?_) hgo ?_ hrest hword hstop hts
  · have hlength : us.length ≤ ts.length := by
      rw [← hus.length_eq, ← hts.length_eq, hsplit]
      simp only [Node.tokensOf_append, Node.tokensOf_cons, List.length_append]
      omega
    refine hns xs m ys hsplit hus ?_ (by simp [hrest]) (Nat.le_trans hlength hdepth)
    rw [headKind_append_eq, hvs.kindBefore]
  · intro m hm
    obtain ⟨xs, ys, hsplit⟩ := List.append_of_mem hm
    exact hne xs m ys hsplit

theorem gives_within (h : Component next n) : ∀ {d k : Nat} {ts rest : List Token},
    Spells n.tokens ts → n.NestsWithin k → headKind rest = next → rest ≠ [] → ts.length ≤ depth →
      Keeps (At d k (ts ++ rest)) (componentWithin depth) fun m s =>
        At d k rest s ∧ m.bare = n.bare := by
  induction h generalizing depth with
  | @token next id span t hclose hend =>
    intro d k ts rest hts _ _ _ hdepth
    obtain ⟨u, us, rfl, ht, hus⟩ := hts.exists_cons
    obtain rfl := hus.eq_nil
    obtain ⟨depth, rfl⟩ : ∃ depth', depth = depth' + 1 := ⟨depth - 1, by simp at hdepth; omega⟩
    refine Keeps.peekKind_at ?_
    rw [← kind_of_bare ht, hclose]
    refine Keeps.bump_at (by rw [← kind_of_bare ht]; exact hend) ?_
    refine (node_at _ _).post fun m s hm => ⟨hm.1, ?_⟩
    rw [Node.bare_eq, hm.2.1, hm.2.2, Node.bare_mk, Element.bareAll_token, Element.bareAll_token, ht]
  | @closed next id vid span vspan opening closing ns hclose hns hgo ih =>
    intro d k ts rest hts hnests _ _ hdepth
    obtain ⟨j, rfl, hinside⟩ := hnests.inside nests_block
    have htokens : (Node.mk id (blockKind opening.kind) span [.token opening,
        .node ⟨vid, .valueList, vspan, ns.map .node⟩, .token closing]).tokens =
          opening :: (Node.tokensOf ns ++ [closing]) := by simp
    rw [htokens] at hts
    obtain ⟨o, us, rfl, ho, hus⟩ := hts.exists_cons
    obtain ⟨vs, ws, rfl, hvs, hws⟩ := hus.exists_append
    obtain ⟨c, cs, rfl, hc, hcs⟩ := hws.exists_cons
    obtain rfl := hcs.eq_nil
    obtain ⟨depth, rfl⟩ : ∃ depth', depth = depth' + 1 := ⟨depth - 1, by simp at hdepth; omega⟩
    have hckind : c.kind = closing.kind := (kind_of_bare hc).symm
    have hinner : ∀ n ∈ ns, n.NestsWithin j := fun n hn =>
      (hinside ⟨vid, .valueList, vspan, ns.map .node⟩ (by simp)).below n (List.mem_map_of_mem hn)
    rw [List.cons_append, List.append_assoc]
    refine Keeps.peekKind_at ?_
    rw [← kind_of_bare ho, hclose]
    refine Keeps.enter_at ?_
    rw [if_pos rfl]
    refine Keeps.bump_at (by rw [← kind_of_bare ho]; exact opening_ne_eof hclose) ?_
    refine Keeps.seq (values_gives ?_ (fun xs n ys h => (hns xs n ys h).tokens_ne_nil) hgo
      (Or.inr (Or.inr (Or.inl ?_))) ?_ ?_ hvs ?_) fun v hv => ?_
    · intro xs n ys hsplit d us ws hus hnext hws hlength
      refine ih xs n ys hsplit hus (hinner n (by rw [hsplit]; simp)) ?_ hws hlength
      rw [hnext]
      exact congrArg _ hckind
    · simp [hckind]
    · simp
    · exact fun h => closing_ne_ident hclose (hckind.symm.trans h)
    · simp only [List.length_cons, List.length_append] at hdepth
      omega
    · refine Keeps.eat_at (closing?_ne_eof hclose) (fun _ => ?_) fun hne => absurd hckind hne
      refine Keeps.exit_at ((node_at _ _).post fun m s hm => ⟨hm.1, ?_⟩)
      rw [Node.bare_eq, hm.2.1, hm.2.2]
      simp [Node.bare_mk, Element.ofToken?, ho, hc, hv, blockKind]
  | @unclosed next id vid span vspan opening close ns hclose hnext hns hgo ih =>
    intro d k ts rest hts hnests hrest hne hdepth
    obtain ⟨j, rfl, hinside⟩ := hnests.inside nests_block
    have htokens : (Node.mk id (blockKind opening.kind) span [.token opening,
        .node ⟨vid, .valueList, vspan, ns.map .node⟩]).tokens = opening :: Node.tokensOf ns := by
      simp
    rw [htokens] at hts
    obtain ⟨o, vs, rfl, ho, hvs⟩ := hts.exists_cons
    obtain ⟨depth, rfl⟩ : ∃ depth', depth = depth' + 1 := ⟨depth - 1, by simp at hdepth; omega⟩
    have hinner : ∀ n ∈ ns, n.NestsWithin j := fun n hn =>
      (hinside ⟨vid, .valueList, vspan, ns.map .node⟩ (by simp)).below n (List.mem_map_of_mem hn)
    have hstop : Stops [close] false rest ∧ headKind rest ≠ close ∧ headKind rest ≠ .ident := by
      rw [hrest]
      rcases hnext with rfl | ⟨rfl, hother⟩
      · exact ⟨Or.inl hrest, (closing?_ne_eof hclose).symm, by decide⟩
      · exact ⟨Or.inr (Or.inl hrest), hother.symm, by decide⟩
    obtain ⟨r, rs, rfl⟩ := List.exists_cons_of_ne_nil hne
    rw [List.cons_append]
    refine Keeps.peekKind_at ?_
    rw [← kind_of_bare ho, hclose]
    refine Keeps.enter_at ?_
    rw [if_pos rfl]
    refine Keeps.bump_at (by rw [← kind_of_bare ho]; exact opening_ne_eof hclose) ?_
    refine Keeps.seq (values_gives ?_ (fun xs n ys h => (hns xs n ys h).tokens_ne_nil) hgo
      hstop.1 hne hstop.2.2 hvs (by simpa using hdepth)) fun v hv => ?_
    · intro xs n ys hsplit d us ws hus hnext hws hlength
      exact ih xs n ys hsplit hus (hinner n (by rw [hsplit]; simp)) (by rw [hnext, hrest]) hws hlength
    · refine Keeps.eat_at (closing?_ne_eof hclose) (fun heq => absurd heq hstop.2.1) fun _ => ?_
      refine Keeps.exit_at ((node_at _ _).post fun m s hm => ⟨hm.1, ?_⟩)
      rw [Node.bare_eq, hm.2.1, hm.2.2]
      simp [Node.bare_mk, Element.ofToken?, ho, hv, blockKind]

/-- From its tokens a value is read again. -/
theorem gives (h : Component next n) {rest : List Token} (hts : Spells n.tokens ts)
    (hnests : n.NestsWithin k) (hnext : headKind rest = next) (hrest : rest ≠ []) :
    Keeps (At d k (ts ++ rest)) component fun m s => At d k rest s ∧ m.bare = n.bare := by
  refine Keeps.length_at fun depth hdepth => h.gives_within hts hnests hnext hrest ?_
  have hpos := List.length_pos_iff.mpr hrest
  rw [List.length_append] at hdepth
  omega

end Component

/-- From its tokens a list of values is read again. -/
theorem Values.gives {next : TokenKind} {v : Node} (h : Values stop important next v)
    (hts : Spells v.tokens ts) (hnests : v.NestsWithin k) (hnext : headKind rest = next)
    (hrest : rest ≠ []) (hword : next ≠ .ident) (hstop : Stops stop important rest) :
    Keeps (At d k (ts ++ rest)) (valuesOf component stop important) fun m s =>
      At d k rest s ∧ m.bare = v.bare := by
  obtain ⟨hkind, ns, hv, hns⟩ := h
  subst hnext
  rw [← v.tokens_eq, hv, Node.tokensOf_nodes] at hts
  refine (valuesOf_gives (fun xs m ys hsplit us vs hus hvs => ?_) hns.goes (fun m hm => ?_) hrest
    hword hstop hts).post fun m s hm => ⟨hm.1, ?_⟩
  · refine (hns.component xs m ys hsplit).gives hus ?_ ?_ (by simp [hrest])
    · exact hnests.below m (by rw [hv, hsplit]; exact List.mem_map_of_mem (by simp))
    · rw [headKind_append_eq, hvs.kindBefore]
  · obtain ⟨xs, ys, hsplit⟩ := List.append_of_mem hm
    exact (hns.component xs m ys hsplit).tokens_ne_nil
  · rw [hm.2, v.bare_eq, hkind, hv, Element.bareAll_nodes]

end Reading

section Finding

variable {d k : Nat} {stop : List TokenKind} {important : Bool} {t : Token} {ts us : List Token}

theorem Stops.append (hts : ts ≠ []) (h : Stops stop important ts) (rest : List Token) :
    Stops stop important (ts ++ rest) := by
  have hmarks : marksImportant ts = true → marksImportant (ts ++ rest) = true := by
    match ts with
    | [] => exact fun h => by cases h
    | [t] => exact fun h => by cases h
    | t :: u :: ts => exact id
  rw [Stops, headKind_append hts]
  rw [Stops] at h
  exact h.imp_right (Or.imp_right (Or.imp_right (And.imp_right hmarks)))

/-- Of the tokens `ts` some were taken, which are `xs`; `φ` says what is left. -/
def Found (d k : Nat) (ts xs : List Token) (φ : List Token → Prop) (s : State) : Prop :=
  ∃ us, ts = xs ++ us ∧ At d k us s ∧ φ us

/-- What is found are the next tokens; `φ` says what it is in front of what is left. -/
abbrev Finds (d k : Nat) (ts : List Token) (φ : Node → List Token → Prop) (n : Node) : State → Prop :=
  Found d k ts n.tokens (φ n)

section Found

variable {α β : Type} {P F : State → Prop} {Q : β → State → Prop} {toks : α → List Token}
  {φ : α → List Token → Prop}

theorem Keeps.found {p : Parser α} {f : α → Parser β}
    (hp : Keeps P p fun a => Found d k ts (toks a) (φ a))
    (hf : ∀ a us, ts = toks a ++ us → φ a us → Keeps (At d k us) (f a) Q) :
    Keeps P (p >>= f) Q := by
  refine Keeps.bind hp fun a s hs => ?_
  obtain ⟨us, hts, hat, hφ⟩ := hs
  exact hf a us hts hφ s hat

theorem Tries.call_found {p : Parser α} {f : α → Attempt β}
    (hp : Keeps P p fun a => Found d k ts (toks a) (φ a))
    (hf : ∀ a us, ts = toks a ++ us → φ a us → Tries (At d k us) (f a) Q F) :
    Tries P ((liftM p : Attempt α) >>= f) Q F := Keeps.found hp hf

theorem Tries.found {p : Attempt α} {f : α → Attempt β}
    (hp : Tries P p (fun a => Found d k ts (toks a) (φ a)) F)
    (hf : ∀ a us, ts = toks a ++ us → φ a us → Tries (At d k us) (f a) Q F) :
    Tries P (p >>= f) Q F := by
  refine Tries.bind hp fun a s hs => ?_
  obtain ⟨us, hts, hat, hφ⟩ := hs
  exact hf a us hts hφ s hat

/-- A token of a kind is found, or another one comes next. -/
theorem eat_finds {kind : TokenKind} (hkind : kind ≠ .eof) :
    Keeps (At d k ts) (eat kind) fun o => Found d k ts o.toList fun us =>
      (∀ t ∈ o, t.kind = kind) ∧ (o = none → headKind us ≠ kind) := by
  refine Keeps.of_at fun t us hts _ => ?_
  subst hts
  rw [← bind_pure (eat kind)]
  refine Keeps.eat_at hkind (fun ht => ?_) fun ht => ?_
  · exact Keeps.ret fun s hs => ⟨us, rfl, hs, by simp [ht], by simp⟩
  · exact Keeps.ret fun s hs => ⟨t :: us, rfl, hs, by simp, fun _ => ht⟩

end Found

/-- A loop finds one after another until it stops. -/
theorem collect_finds {item : Attempt Node} {φ : Node → List Token → Prop}
    {stops : List Token → Prop} (hend : ∀ t : Token, t.kind = .eof → stops [t])
    (hne : ∀ n us, φ n us → n.tokens ≠ [])
    {m : Nat} (hitem : ∀ us, us.length ≤ m →
      Tries (At d k us) item (Finds d k us φ) fun s => At d k us s ∧ stops us)
    (n : Nat) (ts : List Token) (hm : ts.length ≤ m) (hn : ts.length ≤ n + 1) :
    Keeps (At d k ts) (collect item n) fun ns s =>
      ∃ us, ts = Node.tokensOf ns ++ us ∧ At d k us s ∧ stops us ∧
        ∀ xs n ys, ns = xs ++ n :: ys → φ n (Node.tokensOf ys ++ us) := by
  induction n generalizing ts with
  | zero =>
    refine Keeps.of_at fun t us hts heof => Keeps.ret fun s hs => ?_
    subst hts
    obtain rfl : us = [] := List.eq_nil_of_length_eq_zero (by simpa using hn)
    exact ⟨[t], rfl, hs, hend t (heof.mpr rfl), by simp⟩
  | succ n ih =>
    refine Keeps.bind (hitem ts hm) fun r => ?_
    cases r with
    | none => exact Keeps.ret fun s hs => ⟨ts, rfl, hs.1, hs.2, by simp⟩
    | some x =>
      rintro s ⟨us, rfl, hs, hx⟩
      have hpos := List.length_pos_iff.mpr (hne x us hx)
      rw [List.length_append] at hm hn
      obtain ⟨vs, rfl, hvs, hstops, hrest⟩ := ih us (by omega) (by omega) s hs
      refine ⟨vs, (List.append_assoc _ _ _).symm, hvs, hstops, fun xs y ys hsplit => ?_⟩
      cases xs with
      | nil =>
        obtain ⟨rfl, rfl⟩ := List.cons.inj hsplit
        exact hx
      | cons x xs => exact hrest xs y ys (List.cons.inj hsplit).2

section Values

variable {component : Parser Node} {φ : Node → List Token → Prop}

theorem valueItem_finds
    (h : ∀ t us, ts = t :: us → t.kind ≠ .eof →
      Keeps (At d k (t :: us)) component (Finds d k (t :: us) φ)) :
    Tries (At d k ts) (valueItem component stop important)
      (Finds d k ts fun n us => φ n us ∧ ¬Stops stop important (n.tokens ++ us))
      fun s => At d k ts s ∧ Stops stop important ts := by
  refine valueItem_at (fun hstop s hs => ⟨hs, hstop⟩) fun hgo => ?_
  refine Keeps.of_at fun t us hts _ => ?_
  subst hts
  refine (h t us rfl fun heof => hgo (Or.inl heof)).post ?_
  rintro n s ⟨vs, hvs, hs, hn⟩
  exact ⟨vs, hvs, hs, hn, hvs ▸ hgo⟩

/-- Of a list of values it is known what each of them is and where they end. -/
theorem valuesOf_finds (hne : ∀ n us, φ n us → n.tokens ≠ [])
    (h : ∀ t us, us.length < ts.length → t.kind ≠ .eof →
      Keeps (At d k (t :: us)) component (Finds d k (t :: us) φ)) :
    Keeps (At d k ts) (valuesOf component stop important) <| Finds d k ts fun v us =>
      v.kind = .valueList ∧ Stops stop important us ∧ ∃ ns, v.elements = ns.map .node ∧
        ∀ xs n ys, ns = xs ++ n :: ys → φ n (Node.tokensOf ys ++ us) ∧
          ¬Stops stop important (n.tokens ++ Node.tokensOf ys) := by
  refine Keeps.bind (R := fun ns s => ∃ us, ts = Node.tokensOf ns ++ us ∧ At d k us s ∧
    Stops stop important us ∧ ∀ xs m ys, ns = xs ++ m :: ys → φ m (Node.tokensOf ys ++ us) ∧
      ¬Stops stop important (m.tokens ++ (Node.tokensOf ys ++ us))) ?_ fun ns => ?_
  · exact Keeps.length_at fun n hn => collect_finds (fun t ht => Or.inl ht)
      (fun n us hn => hne n us hn.1)
      (fun us hus => valueItem_finds fun t vs hvs => h t vs (by rw [hvs, List.length_cons] at hus; omega))
      n ts (Nat.le_refl _) hn
  · rintro s ⟨us, hts, hs, hstops, hns⟩
    have hnode := node_at (d := d) (k := k) .valueList (ns.map .node) s hs
    refine ⟨us, ?_, hnode.1, hnode.2.1, hstops, ns, hnode.2.2, fun xs n ys hsplit => ?_⟩
    · rw [hts, ← Node.tokens_eq, hnode.2.2, Node.tokensOf_nodes]
    · obtain ⟨hn, hgo⟩ := hns xs n ys hsplit
      refine ⟨hn, fun hstop => hgo ?_⟩
      rw [← List.append_assoc]
      exact hstop.append (by simp [hne n _ hn]) us

/-- What values are if none of them is an error. -/
theorem Values.of_finds {next : TokenKind} {v : Node} {us : List Token}
    (hkind : v.kind = .valueList) (hnext : headKind us = next) {ns : List Node}
    (hv : v.elements = ns.map .node)
    (hns : ∀ xs n ys, ns = xs ++ n :: ys →
      (n.containsError = false → Component (headKind (Node.tokensOf ys ++ us)) n) ∧
        ¬Stops stop important (n.tokens ++ Node.tokensOf ys))
    (herror : v.containsError = false) : Values stop important next v := by
  refine ⟨hkind, ns, hv, fun xs n ys hsplit => ?_, fun xs n ys hsplit => (hns xs n ys hsplit).2⟩
  have hmem : .node n ∈ v.elements := by
    rw [hv, hsplit]
    exact List.mem_map_of_mem (by simp)
  have hn := (hns xs n ys hsplit).1 ((Node.containsError_eq_false.mp herror).2 n hmem)
  rwa [headKind_append_eq, hnext] at hn

end Values

/-- What is said of a component value that was found. -/
def IsComponent (n : Node) (us : List Token) : Prop :=
  n.tokens ≠ [] ∧ (n.containsError = false → Component (headKind us) n)

theorem finds_error {n : Node} {us : List Token} (hkind : n.kind = .error) (hne : n.tokens ≠ []) :
    IsComponent n us :=
  ⟨hne, fun herror => absurd hkind (Node.containsError_eq_false.mp herror).1⟩

theorem preservedToken_finds (ht : t.kind ≠ .eof) (hclose : t.kind.closing? = none) :
    Keeps (At d k (t :: us)) (do node .preservedToken [.token (← bump)])
      (Finds d k (t :: us) IsComponent) := by
  refine Keeps.bump_at ht ((node_at _ _).post fun n s hn => ⟨us, ?_, hn.1, ?_, fun _ => ?_⟩)
  · rw [← n.tokens_eq, hn.2.2]
    rfl
  · rw [← n.tokens_eq, hn.2.2]
    simp
  · obtain ⟨id, kind, span, es⟩ := n
    obtain ⟨-, rfl, rfl⟩ := hn
    exact .token hclose ht

/-- Brackets are closed, or end where what is around them ends. -/
theorem block_finds {close : TokenKind} {v : Node} {vs : List Token}
    (hclose : t.kind.closing? = some close) (hkind : v.kind = .valueList)
    (hv : Stops [close] false vs ∧ ∃ ns, v.elements = ns.map .node ∧
      ∀ xs n ys, ns = xs ++ n :: ys → IsComponent n (Node.tokensOf ys ++ vs) ∧
        ¬Stops [close] false (n.tokens ++ Node.tokensOf ys)) :
    Keeps (At (d + 1) k vs) (do
      let closing ← eat close
      exit
      node (blockKind t.kind) (.token t :: .node v :: Element.ofToken? closing))
      (Finds d (k + 1) (t :: (v.tokens ++ vs)) IsComponent) := by
  obtain ⟨hstop, ns, hns, hcomponent⟩ := hv
  obtain ⟨vid, vkind, vspan, ves⟩ := v
  obtain rfl : vkind = .valueList := hkind
  obtain rfl : ves = ns.map .node := hns
  have hinner : ∀ {next : TokenKind}, headKind vs = next →
      (Node.mk vid .valueList vspan (ns.map .node)).containsError = false →
        ∀ xs n ys, ns = xs ++ n :: ys → Component (kindBefore (Node.tokensOf ys) next) n := by
    intro next hnext herror xs n ys hsplit
    have hn := Node.containsError_eq_false.mp herror
    have hmem : n.containsError = false := hn.2 n (by rw [hsplit]; exact List.mem_map_of_mem (by simp))
    have hshape := (hcomponent xs n ys hsplit).1.2 hmem
    rwa [headKind_append_eq, hnext] at hshape
  refine Keeps.of_at fun u us hus heof => ?_
  subst hus
  refine Keeps.eat_at (closing?_ne_eof hclose) (fun hu => ?_) fun hu => ?_
  · refine Keeps.exit_at ((node_at _ _).post fun n s hn => ⟨us, ?_, hn.1, ?_, fun herror => ?_⟩)
    · rw [← n.tokens_eq, hn.2.2]
      simp [Element.ofToken?]
    · rw [← n.tokens_eq, hn.2.2]
      simp
    · obtain ⟨id, kind, span, es⟩ := n
      obtain ⟨-, rfl, rfl⟩ := hn
      have hv := (Node.containsError_eq_false.mp herror).2 _ (List.mem_cons_of_mem _ List.mem_cons_self)
      subst hu
      exact .closed hclose (hinner rfl hv) fun xs n ys hsplit => (hcomponent xs n ys hsplit).2
  · refine Keeps.exit_at ((node_at _ _).post fun n s hn => ⟨u :: us, ?_, hn.1, ?_, fun herror => ?_⟩)
    · rw [← n.tokens_eq, hn.2.2]
      simp [Element.ofToken?]
    · rw [← n.tokens_eq, hn.2.2]
      simp
    · obtain ⟨id, kind, span, es⟩ := n
      obtain ⟨-, rfl, rfl⟩ := hn
      have hv := (Node.containsError_eq_false.mp herror).2 _ (List.mem_cons_of_mem _ List.mem_cons_self)
      have hnext : u.kind = .eof ∨ u.kind = .closeBrace ∧ close ≠ .closeBrace := by
        rcases hstop with h | h | h | h
        · exact Or.inl h
        · exact Or.inr ⟨h, fun hc => hu (h.trans hc.symm)⟩
        · exact absurd (List.mem_singleton.mp h) hu
        · exact absurd h.1 (by decide)
      exact .unclosed hclose hnext (hinner rfl hv) fun xs n ys hsplit => (hcomponent xs n ys hsplit).2

/-- A component value that holds no error has the shape of one. -/
theorem componentWithin_finds (depth : Nat) : ∀ {d k : Nat} (t : Token) (us : List Token),
    us.length ≤ depth → t.kind ≠ .eof →
      Keeps (At d k (t :: us)) (componentWithin depth) (Finds d k (t :: us) IsComponent) := by
  induction depth with
  | zero =>
    intro d k t us hlength ht s hs
    obtain rfl := List.eq_nil_of_length_eq_zero (Nat.le_zero.mp hlength)
    exact absurd (hs.eof_iff.mpr rfl) ht
  | succ depth ih =>
    intro d k t us hlength ht
    refine Keeps.peekKind_at ?_
    split
    next hclose => exact preservedToken_finds ht hclose
    next close hclose =>
      cases k with
      | zero =>
        refine Keeps.enter_at_limit ?_
        rw [if_neg (by simp)]
        refine (recoverBlock_at ht).post ?_
        rintro n s ⟨vs, hvs, hs, hkind, hne⟩
        exact ⟨vs, hvs, hs, finds_error hkind hne⟩
      | succ k =>
        refine Keeps.enter_at ?_
        rw [if_pos rfl]
        refine Keeps.bump_at ht ?_
        refine Keeps.bind (valuesOf_finds (fun _ _ h => h.1) fun u vs hvs hu => ih u vs ?_ hu) ?_
        · omega
        · rintro v s ⟨vs, hvs, hs, hkind, hv⟩
          subst hvs
          exact block_finds hclose hkind hv s hs

theorem component_finds (ht : t.kind ≠ .eof) :
    Keeps (At d k (t :: us)) component (Finds d k (t :: us) IsComponent) :=
  Keeps.length_at fun n hn => componentWithin_finds n t us (by simpa using hn) ht

/-- A list of values that holds no error has the shape of one. -/
theorem values_finds (stop : List TokenKind) (important : Bool) :
    Keeps (At d k ts) (valuesOf component stop important) (Finds d k ts fun v us =>
      Stops stop important us ∧
        (v.containsError = false → Values stop important (headKind us) v)) := by
  refine (valuesOf_finds (fun _ _ h => h.1) fun t us _ ht => component_finds ht).post ?_
  rintro v s ⟨us, hts, hs, hkind, hstop, ns, hv, hns⟩
  exact ⟨us, hts, hs, hstop, Values.of_finds hkind rfl hv fun xs n ys h =>
    ⟨(hns xs n ys h).1.2, (hns xs n ys h).2⟩⟩

end Finding

end Syntax

end CssTree
