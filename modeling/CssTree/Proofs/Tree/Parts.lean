import Mathlib.Data.List.Chain
import CssTree.Proofs.Syntax.Value
import CssTree.Proofs.Tree.Slots
import CssTree.Tree.Query

namespace CssTree

theorem CombinatorKind.ofText_ne_descendant (t : Text) : ofText t ≠ .descendant := by
  unfold ofText
  split_ifs <;> simp

namespace SelectorPart

def isCombinator : SelectorPart → Bool
  | simple _ => false
  | combinator _ _ => true

/-- The combinator between simple selectors that have nothing but trivia between them. -/
def isDescendant : SelectorPart → Bool
  | combinator .descendant _ => true
  | _ => false

theorem isDescendant_combinator {kind : CombinatorKind} (h : kind ≠ .descendant)
    (node : Option NodeId) : (combinator kind node).isDescendant = false := by
  cases kind with
  | descendant => exact absurd rfl h
  | _ => rfl

/-- Not both of two parts are combinators. -/
def Apart (a b : SelectorPart) : Prop := a.isCombinator = true → b.isCombinator = false

end SelectorPart

namespace Node

variable {n m a b : Node} {ns ms : List Node} {previous : Option Node} {first : Bool}

/-- The part of a selector that a child of it is. -/
inductive IsPart : Node → SelectorPart → Prop
  | simple {n : Node} : n.kind ≠ .combinator → IsPart n (.simple n.id)
  | combinator {n : Node} {t : Token} : n.kind = .combinator → n.tokens.head? = some t →
      IsPart n (.combinator (.ofText t.text) (some n.id))

theorem combinator?_of_kind (h : n.kind ≠ .combinator) : n.combinator? = none := if_neg h

/-- A combinator with a token is read from its first one. -/
theorem exists_combinator? (h : n.kind = .combinator) (htokens : n.tokens ≠ []) :
    ∃ t, n.tokens.head? = some t ∧ n.combinator? = some (.ofText t.text) := by
  obtain ⟨t, ts, ht⟩ := List.exists_cons_of_ne_nil htokens
  have hhead : n.tokens.head? = some t := by rw [ht, List.head?_cons]
  exact ⟨t, hhead, by rw [combinator?, if_pos h, hhead, Option.map_some]⟩

theorem partsFrom_simple (h : n.kind ≠ .combinator) : partsFrom previous (n :: ns) =
    (if previous.any (·.separatedFrom n) then [.combinator .descendant none] else []) ++
      .simple n.id :: partsFrom (some n) ns := by
  rw [partsFrom, combinator?_of_kind h]
  dsimp only
  split <;> rfl

theorem partsFrom_combinator {kind : CombinatorKind} (h : n.combinator? = some kind) :
    partsFrom previous (n :: ns) = .combinator kind (some n.id) :: partsFrom none ns := by
  rw [partsFrom, h]

/-- A child in front is read either way. -/
theorem partsFrom_cons (previous : Option Node) (n : Node) (ns : List Node) :
    ∃ front next, partsFrom previous (n :: ns) = front ++ partsFrom next ns := by
  cases h : n.combinator? with
  | some kind => exact ⟨[_], none, partsFrom_combinator h⟩
  | none =>
    rw [partsFrom, h]
    dsimp only
    split
    · exact ⟨[_, _], some n, rfl⟩
    · exact ⟨[_], some n, rfl⟩

theorem head?_partsFrom (h : NodeKind.Steps true (ns.map Node.kind)) :
    ∃ id, (partsFrom none ns).head? = some (.simple id) := by
  cases ns with
  | nil => cases h
  | cons n ns =>
    cases h with
    | simple hkind _ =>
      refine ⟨n.id, ?_⟩
      rw [partsFrom_simple hkind]
      rfl

theorem getLast?_partsFrom (htokens : ∀ n ∈ ns, n.tokens ≠ [])
    (h : NodeKind.Steps first (ns.map Node.kind)) :
    ∀ part ∈ (partsFrom previous ns).getLast?, ∃ id, part = .simple id := by
  induction ns generalizing previous first with
  | nil => simp [partsFrom]
  | cons n ns ih =>
    rw [List.forall_mem_cons] at htokens
    rw [List.map_cons] at h
    generalize hkind : n.kind = kind at h
    cases h with
    | simple hsimple hrest =>
      have hlast : ∀ part ∈ (partsFrom (some n) ns).getLast?, ∃ id, part = .simple id :=
        ih htokens.2 hrest
      rw [partsFrom_simple (hkind ▸ hsimple), List.getLast?_append_cons, List.getLast?_cons]
      cases hrests : (partsFrom (some n) ns).getLast? with
      | none => simp
      | some part => simpa using hlast part hrests
    | combinator hrest =>
      obtain ⟨t, -, hread⟩ := exists_combinator? hkind htokens.1
      obtain ⟨id, hhead⟩ := head?_partsFrom hrest
      obtain ⟨parts, hparts⟩ := List.head?_eq_some_iff.mp hhead
      have hlast : ∀ part ∈ (partsFrom none ns).getLast?, ∃ id, part = .simple id :=
        ih htokens.2 hrest
      rw [partsFrom_combinator hread, hparts, List.getLast?_cons_cons, ← hparts]
      exact hlast

theorem isChain_partsFrom (htokens : ∀ n ∈ ns, n.tokens ≠ [])
    (h : NodeKind.Steps first (ns.map Node.kind)) :
    (partsFrom previous ns).IsChain SelectorPart.Apart := by
  have hbehind : ∀ {id : NodeId} {parts : List SelectorPart}, parts.IsChain SelectorPart.Apart →
      (.simple id :: parts : List SelectorPart).IsChain SelectorPart.Apart := by
    intro id parts hparts
    refine List.isChain_cons.mpr ⟨fun part _ hcombinator => ?_, hparts⟩
    cases hcombinator
  have hfront : ∀ {kind : CombinatorKind} {id : Option NodeId} {parts : List SelectorPart},
      (∃ id, parts.head? = some (.simple id)) → parts.IsChain SelectorPart.Apart →
        (.combinator kind id :: parts : List SelectorPart).IsChain SelectorPart.Apart := by
    rintro kind id parts ⟨i, hhead⟩ hparts
    refine List.isChain_cons.mpr ⟨fun part hpart _ => ?_, hparts⟩
    rw [hhead] at hpart
    obtain rfl := Option.some.inj hpart
    rfl
  induction ns generalizing previous first with
  | nil => exact .nil
  | cons n ns ih =>
    rw [List.forall_mem_cons] at htokens
    rw [List.map_cons] at h
    generalize hkind : n.kind = kind at h
    cases h with
    | simple hsimple hrest =>
      have hchain : (.simple n.id :: partsFrom (some n) ns).IsChain SelectorPart.Apart :=
        hbehind (ih htokens.2 hrest)
      rw [partsFrom_simple (hkind ▸ hsimple)]
      split
      · exact hfront ⟨n.id, rfl⟩ hchain
      · exact hchain
    | combinator hrest =>
      obtain ⟨t, -, hread⟩ := exists_combinator? hkind htokens.1
      rw [partsFrom_combinator hread]
      exact hfront (head?_partsFrom hrest) (ih htokens.2 hrest)

/-- Apart from descendant combinators, the parts are the children in their order. -/
theorem forall₂_partsFrom (htokens : ∀ n ∈ ns, n.tokens ≠ []) :
    List.Forall₂ IsPart ns ((partsFrom previous ns).filter (!·.isDescendant)) := by
  induction ns generalizing previous with
  | nil => exact .nil
  | cons n ns ih =>
    rw [List.forall_mem_cons] at htokens
    by_cases hkind : n.kind = .combinator
    · obtain ⟨t, hhead, hread⟩ := exists_combinator? hkind htokens.1
      have hkept := SelectorPart.isDescendant_combinator
        (CombinatorKind.ofText_ne_descendant t.text) (some n.id)
      rw [partsFrom_combinator hread, List.filter_cons_of_pos (by simp [hkept])]
      exact .cons (.combinator hkind hhead) (ih htokens.2)
    · have hdropped : (if previous.any (·.separatedFrom n) then
          [SelectorPart.combinator .descendant none] else []).filter (!·.isDescendant) = [] := by
        split <;> rfl
      rw [partsFrom_simple hkind, List.filter_append, hdropped, List.nil_append,
        List.filter_cons_of_pos rfl]
      exact .cons (.simple hkind) (ih htokens.2)

/-- The parts of a selector around one that is simple. -/
theorem exists_partsFrom (previous : Option Node) (ms : List Node) (h : n.kind ≠ .combinator)
    (ns : List Node) : ∃ front, partsFrom previous (ms ++ n :: ns) =
      front ++ .simple n.id :: partsFrom (some n) ns := by
  induction ms generalizing previous with
  | nil => exact ⟨_, partsFrom_simple h⟩
  | cons m ms ih =>
    obtain ⟨front, next, hcons⟩ := partsFrom_cons previous m (ms ++ n :: ns)
    obtain ⟨others, hrest⟩ := ih next
    exact ⟨front ++ others, by rw [List.cons_append, hcons, hrest, List.append_assoc]⟩

/-- Two nodes are separated where their tokens are not run together. -/
theorem separatedFrom_eq {x y : Token} {xs ys : List Token} (ha : a.tokens = xs ++ [x])
    (hb : b.tokens = y :: ys) : a.separatedFrom b = !x.touches y := by
  rw [separatedFrom, leading, ha, hb, List.getLast?_concat, List.head?_cons, Token.touches]
  simp

/-- Two simple selectors one after another among the parts of a selector. -/
theorem partsFrom_between {x y : Token} {xs ys : List Token} (ha : a.kind ≠ .combinator)
    (hb : b.kind ≠ .combinator) (hx : a.tokens = xs ++ [x]) (hy : b.tokens = y :: ys)
    (previous : Option Node) (ms ns : List Node) :
    ∃ front back, partsFrom previous (ms ++ a :: b :: ns) =
      front ++ .simple a.id ::
        ((if x.touches y then [] else [.combinator .descendant none]) ++ .simple b.id :: back) := by
  obtain ⟨front, hfront⟩ := exists_partsFrom previous ms ha (b :: ns)
  refine ⟨front, partsFrom (some b) ns, ?_⟩
  rw [hfront, partsFrom_simple hb, Option.any_some, separatedFrom_eq hx hy]
  cases x.touches y <;> rfl

theorem length_tokens_of_skeleton (h : m.skeleton = n.skeleton) :
    m.tokens.length = n.tokens.length := by
  rw [← m.length_tokens_shape, h, n.length_tokens_shape]

theorem combinator?_of_spells (hkind : m.kind = n.kind) (h : Token.Spells m.tokens n.tokens) :
    m.combinator? = n.combinator? := by
  rw [combinator?, combinator?, hkind]
  cases hm : m.tokens with
  | nil =>
    rw [hm] at h
    rw [h.eq_nil]
  | cons t ts =>
    rw [hm] at h
    obtain ⟨u, us, hn, hbare, -⟩ := h.exists_cons
    rw [hn, List.head?_cons, List.head?_cons, Option.map_some, Option.map_some,
      Token.text_of_bare hbare]

/-- A node with as many tokens as another one, which has some. -/
def Matches (m n : Node) : Prop := n.tokens ≠ [] ∧ m.tokens.length = n.tokens.length

theorem separatedFrom_of_spells {c d : Node} {ts us : List Token} (hab : b.Matches a)
    (hcd : d.Matches c)
    (h : Token.Spells (b.tokens ++ (d.tokens ++ us)) (a.tokens ++ (c.tokens ++ ts))) :
    b.separatedFrom d = a.separatedFrom c := by
  obtain ⟨ha, hb⟩ := hab
  obtain ⟨hc, hd⟩ := hcd
  have hne : b.tokens ≠ [] := by
    intro hnil
    rw [hnil, List.length_nil] at hb
    exact ha (List.eq_nil_of_length_eq_zero hb.symm)
  obtain ⟨y, ys, hy⟩ := List.exists_cons_of_ne_nil hc
  obtain ⟨y', ys', hy'⟩ : ∃ y' ys', d.tokens = y' :: ys' :=
    List.exists_cons_of_length_eq_add_one (by rw [hd, hy]; rfl)
  obtain ⟨xs, x, hx⟩ : ∃ xs x, a.tokens = xs ++ [x] :=
    ⟨_, _, (List.dropLast_append_getLast ha).symm⟩
  obtain ⟨xs', x', hx'⟩ : ∃ xs' x', b.tokens = xs' ++ [x'] :=
    ⟨_, _, (List.dropLast_append_getLast hne).symm⟩
  rw [hx, hx', List.length_append, List.length_append, List.length_singleton] at hb
  rw [hx, hx', hy, hy', List.append_assoc, List.append_assoc] at h
  have hjoint := (Token.Spells.of_append (Nat.add_right_cancel hb) h).2
  rw [separatedFrom_eq hx hy, separatedFrom_eq hx' hy', hjoint.touches]

theorem partsFrom_of_spells {previous' : Option Node} (htokens : ∀ n ∈ ns, n.tokens ≠ [])
    (hskeleton : ms.map skeleton = ns.map skeleton) (hprevious : Option.Rel Matches previous' previous)
    (h : Token.Spells (tokensOf previous'.toList ++ tokensOf ms)
      (tokensOf previous.toList ++ tokensOf ns)) :
    partsFrom previous' ms = partsFrom previous ns := by
  induction ns generalizing ms previous previous' with
  | nil =>
    rw [List.map_eq_nil_iff.mp hskeleton]
    rfl
  | cons n ns ih =>
    obtain ⟨m, ms, rfl, hm, hms⟩ := List.map_eq_cons_iff.mp hskeleton
    rw [List.forall_mem_cons] at htokens
    have hmatches : m.Matches n := ⟨htokens.1, length_tokens_of_skeleton hm⟩
    have hlength : (tokensOf previous'.toList).length = (tokensOf previous.toList).length := by
      cases hprevious with
      | none => rfl
      | some hmatch => simpa using hmatch.2
    have hbehind : Token.Spells (m.tokens ++ tokensOf ms) (n.tokens ++ tokensOf ns) :=
      (Token.Spells.of_append hlength h).2
    have hown := Token.Spells.of_append hmatches.2 hbehind
    have hkind := kind_of_skeleton hm
    have hcombinator := combinator?_of_spells hkind hown.1
    by_cases hsimple : n.kind = .combinator
    · obtain ⟨t, -, hread⟩ := exists_combinator? hsimple htokens.1
      rw [partsFrom_combinator hread, partsFrom_combinator (hcombinator.trans hread),
        id_of_skeleton hm, ih htokens.2 hms .none hown.2]
    · have hseparated : previous'.any (·.separatedFrom m) = previous.any (·.separatedFrom n) := by
        cases hprevious with
        | none => rfl
        | @some a' a hmatch =>
          have hjoined : Token.Spells (a'.tokens ++ (m.tokens ++ tokensOf ms))
              (a.tokens ++ (n.tokens ++ tokensOf ns)) := by simpa using h
          exact separatedFrom_of_spells hmatch hmatches hjoined
      have hrest := ih htokens.2 hms (.some hmatches) (by simpa using hbehind)
      rw [partsFrom_simple hsimple, partsFrom_simple (hkind ▸ hsimple), hseparated,
        id_of_skeleton hm, hrest]

end Node

end CssTree
