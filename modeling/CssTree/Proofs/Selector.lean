import CssTree.Proofs.Edit.Spaced
import CssTree.Proofs.Shape
import CssTree.Proofs.Token.Pieces
import CssTree.Proofs.Tree.Parts
import CssTree.Proofs.Trivia

namespace CssTree

namespace Token

theorem exists_trailingToLeading (c : List Lexeme) (t : Token) (ts : List Token) :
    ∃ u us, trailingToLeading c (t :: ts) = u :: us ∧ u.leading = c ++ t.leading := by
  cases ts with
  | nil => exact ⟨_, _, rfl, rfl⟩
  | cons v ts => exact ⟨_, _, rfl, rfl⟩

theorem exists_leadingToTrailing (t : Token) (ts : List Token) :
    ∃ u us, t.leadingToTrailing ts = u :: us ∧ u.leading = t.leading := by
  cases ts with
  | nil => exact ⟨_, _, rfl, rfl⟩
  | cons v ts => exact ⟨_, _, rfl, rfl⟩

theorem joints_trailingToLeading (c : List Lexeme) (ts : List Token) :
    joints (trailingToLeading c ts) = joints ts := by
  induction ts generalizing c with
  | nil => rfl
  | cons t ts ih =>
    cases ts with
    | nil => rfl
    | cons u ts =>
      obtain ⟨v, vs, hcons, hleading⟩ := exists_trailingToLeading t.trailing u ts
      rw [trailingToLeading, hcons, joints, ← hcons, ih, hleading]
      rfl

theorem joints_leadingToTrailing (t : Token) (ts : List Token) :
    joints (t.leadingToTrailing ts) = joints (t :: ts) := by
  induction ts generalizing t with
  | nil => rfl
  | cons u ts ih =>
    obtain ⟨v, vs, hcons, hleading⟩ := exists_leadingToTrailing u.dropSameLine ts
    have hlead : u.sameLine ++ u.dropSameLine.leading = u.leading := List.takeWhile_append_dropWhile
    have hrest : joints (u.dropSameLine :: ts) = joints (u :: ts) := by cases ts <;> rfl
    rw [leadingToTrailing, hcons, joints, ← hcons, ih, hrest, hleading, List.append_assoc, hlead]
    rfl

/-- Tokens spell what they spelled if they have the same trivia between them. -/
theorem Redeals.spells {f : List Token → List Token} (hf : Redeals f)
    (hjoints : ∀ ts, joints (f ts) = joints ts) (ts : List Token) : Spells (f ts) ts := by
  have hbare := congrArg (List.map bare) (hf.cores ts)
  rw [List.map_map, List.map_map] at hbare
  exact spells_of_joints hbare (hjoints ts)

theorem spells_trailingToLeading (ts : List Token) : Spells (trailingToLeading [] ts) ts :=
  redeals_trailingToLeading.spells (joints_trailingToLeading []) ts

theorem spells_trailAll (ts : List Token) : Spells (trailAll ts) ts := by
  refine redeals_trailAll.spells (fun ts => ?_) ts
  cases ts with
  | nil => rfl
  | cons t ts => exact joints_leadingToTrailing t ts

end Token

/-- A node of the same skeleton whose tokens spell the same. -/
structure Node.Respells (m n : Node) : Prop where
  skeleton : m.skeleton = n.skeleton
  spells : Token.Spells m.tokens n.tokens

mutual

theorem Node.respells_descendants : ∀ {m n : Node}, m.Respells n →
    List.Forall₂ Node.Respells m.descendants n.descendants
  | ⟨i, kind, span, fs⟩, ⟨j, kind', span', es⟩, h => by
    obtain ⟨hskeleton, hspells⟩ := h
    have hall : Element.skeletonAll fs = Element.skeletonAll es :=
      congrArg Node.elements hskeleton
    rw [Node.descendants_mk, Node.descendants_mk]
    exact .cons ⟨hskeleton, hspells⟩ (Element.respells_descendantsOf hall hspells)

theorem Element.respells_descendantsOf : ∀ {fs es : List Element},
    Element.skeletonAll fs = Element.skeletonAll es →
      Token.Spells (Element.tokensOf fs) (Element.tokensOf es) →
        List.Forall₂ Node.Respells (Element.descendantsOf fs) (Element.descendantsOf es)
  | [], [], _, _ => .nil
  | .token u :: fs, .token t :: es, hall, h => by
    rw [Element.descendantsOf_token, Element.descendantsOf_token]
    exact Element.respells_descendantsOf (List.cons.inj hall).2 h.of_cons.2
  | .node m :: fs, .node n :: es, hall, h => by
    obtain ⟨hfirst, hall⟩ := List.cons.inj hall
    have hskeleton : m.skeleton = n.skeleton := Element.node.inj hfirst
    rw [Element.tokensOf_node, Element.tokensOf_node] at h
    obtain ⟨hspells, hrest⟩ := h.of_append (Node.length_tokens_of_skeleton hskeleton)
    rw [Element.descendantsOf_node, Element.descendantsOf_node]
    exact List.rel_append (Node.respells_descendants ⟨hskeleton, hspells⟩)
      (Element.respells_descendantsOf hall hrest)
  | [], .token _ :: _, hall, _ => by cases hall
  | [], .node _ :: _, hall, _ => by cases hall
  | .token _ :: _, [], hall, _ => by cases hall
  | .node _ :: _, [], hall, _ => by cases hall
  | .token _ :: _, .node _ :: _, hall, _ => by cases hall
  | .node _ :: _, .token _ :: _, hall, _ => by cases hall

end

namespace Node

variable {m n : Node}

theorem Respells.find? (h : m.Respells n) (id : NodeId) :
    Option.Rel Respells (m.find? id) (n.find? id) := by
  have hall := respells_descendants h
  rw [Node.find?, Node.find?]
  generalize m.descendants = xs, n.descendants = ys at hall
  induction hall with
  | nil => exact .none
  | @cons x y xs ys hfirst _ ih =>
    have hid := id_of_skeleton hfirst.skeleton
    rw [List.find?_cons, List.find?_cons, hid]
    split
    · exact .some hfirst
    · exact ih

theorem elements_of_roles {es : List Element} (h : ∀ role ∈ es.map Element.role, role = none) :
    es = (Element.nodes es).map .node := by
  induction es with
  | nil => rfl
  | cons e es ih =>
    rw [List.map_cons, List.forall_mem_cons] at h
    cases e with
    | token t => cases h.1
    | node n => rw [Element.nodes_node, List.map_cons, ← ih h.2]

/-- The tokens of a selector are those of its parts. -/
theorem Stepped.tokens (h : n.Stepped) (hkind : n.kind = .selector) :
    n.tokens = tokensOf n.children := by
  rw [← n.tokens_eq, elements_of_roles (h.nodes hkind), tokensOf_nodes]
  rfl

theorem Stepped.tokens_ne_nil (h : n.Stepped) (hpart : n.kind.isSelectorPart = true) :
    n.tokens ≠ [] := by
  obtain ⟨role, hrole, hne⟩ := h.token hpart
  obtain ⟨e, he, rfl⟩ := List.mem_map.mp hrole
  cases e with
  | node m => exact absurd rfl hne
  | token t =>
    obtain ⟨front, back, hsplit⟩ := List.append_of_mem he
    rw [← n.tokens_eq, hsplit, Element.tokensOf_append, Element.tokensOf_token]
    simp

/-- The parts of a selector have tokens. -/
theorem Proper.tokens_part (h : n.Proper) (hkind : n.kind = .selector)
    (hchildren : ∀ c ∈ n.children, c.Proper) : ∀ c ∈ n.children, c.tokens ≠ [] := fun c hc =>
  (hchildren c hc).stepped.tokens_ne_nil (h.slots.admits (h.slots.holds_part hkind hc))

/-- What the parts of a selector say about it: which children it has, and where something but the
parts stands in its text. -/
structure HasParts (n : Node) (parts : List SelectorPart) : Prop where
  head : ∃ id, parts.head? = some (.simple id)
  last : ∃ id, parts.getLast? = some (.simple id)
  apart : parts.IsChain SelectorPart.Apart
  children : List.Forall₂ IsPart n.children (parts.filter (!·.isDescendant))
  gaps : ∀ front a b back, n.children = front ++ a :: b :: back → a.kind ≠ .combinator →
    b.kind ≠ .combinator → ∃ xs x y ys gap, a.tokens = xs ++ [x] ∧ b.tokens = y :: ys ∧
      gap = Lexeme.render (x.trailing ++ y.leading) ∧
      n.render = Token.renderAll (tokensOf front ++ xs) ++ (Lexeme.render x.leading ++ x.text) ++
        gap ++ (y.text ++ Lexeme.render y.trailing) ++ Token.renderAll (ys ++ tokensOf back) ∧
      ∃ left right, parts = left ++ .simple a.id ::
        ((if gap = [] then [] else [.combinator .descendant none]) ++ .simple b.id :: right)

/-- Tokens are run together where there is no text between them. -/
theorem Spaced.touches_eq (h : n.Spaced) {x y : Token} (hx : x ∈ n.tokens) (hy : y ∈ n.tokens) :
    x.touches y = decide (Lexeme.render (x.trailing ++ y.leading) = []) := by
  have hempty : ∀ {ls : List Lexeme}, (∀ l ∈ ls, l.text ≠ []) →
      ls.isEmpty = decide (Lexeme.render ls = []) := by
    intro ls hls
    cases ls with
    | nil => rfl
    | cons l ls => simp [hls l List.mem_cons_self]
  have hjoint : x.touches y = (x.trailing ++ y.leading).isEmpty := by
    rw [Token.touches]
    cases x.trailing <;> rfl
  rw [hjoint, hempty]
  exact List.forall_mem_append.mpr ⟨(h x hx).trailing, (h y hy).leading⟩

theorem Proper.hasParts (h : n.Proper) (hkind : n.kind = .selector)
    (hchildren : ∀ c ∈ n.children, c.Proper) (hspaced : n.Spaced) :
    n.HasParts (partsFrom none n.children) := by
  have hsteps := h.stepped.steps hkind
  have htokens := h.tokens_part hkind hchildren
  obtain ⟨id, hhead⟩ := head?_partsFrom hsteps
  refine ⟨⟨id, hhead⟩, ?_, isChain_partsFrom htokens hsteps, forall₂_partsFrom htokens, ?_⟩
  · obtain ⟨parts, hparts⟩ := List.head?_eq_some_iff.mp hhead
    obtain ⟨part, hlast⟩ : ∃ part, (partsFrom none n.children).getLast? = some part := by
      rw [hparts, List.getLast?_cons]
      exact ⟨_, rfl⟩
    obtain ⟨i, rfl⟩ := getLast?_partsFrom htokens hsteps part hlast
    exact ⟨i, hlast⟩
  · intro front a b back hsplit ha hb
    have hown : n.tokens = tokensOf n.children := h.stepped.tokens hkind
    rw [hsplit] at htokens hown
    obtain ⟨y, ys, hy⟩ := List.exists_cons_of_ne_nil (htokens b (by simp))
    obtain ⟨xs, x, hx⟩ : ∃ xs x, a.tokens = xs ++ [x] :=
      ⟨_, _, (List.dropLast_append_getLast (htokens a (by simp))).symm⟩
    rw [tokensOf_append, tokensOf_cons, tokensOf_cons, hx, hy] at hown
    obtain ⟨left, right, hparts⟩ := partsFrom_between ha hb hx hy none front back
    have htouches := hspaced.touches_eq (x := x) (y := y) (by simp [hown]) (by simp [hown])
    refine ⟨xs, x, y, ys, _, hx, hy, rfl, ?_, left, right, ?_⟩
    · rw [Node.render, hown]
      simp [Token.render]
    · rw [hsplit, hparts, htouches]
      simp

end Node

namespace Tree

variable {tree tree' : Tree}

theorem selectorParts_of_mem (h : tree.Sound []) {n : Node} (hn : n ∈ tree.root.descendants)
    (hkind : n.kind = .selector) :
    tree.selectorParts n.id = .ok (Node.partsFrom none n.children) := by
  have hget : tree.get n.id = .ok n := by rw [Tree.get, h.find?_of_mem hn]
  rw [selectorParts, hget]
  show (if n.kind = .selector then _ else _) = _
  rw [if_pos hkind]
  rfl

/-- In a tree that spells the same, all selectors have the parts that they had. -/
theorem selectorParts_of_respells (h : tree'.root.Respells tree.root)
    (hproper : ∀ x ∈ tree.root.descendants, x.Proper) (id : NodeId) :
    tree'.selectorParts id = tree.selectorParts id := by
  have hfind : Option.Rel Node.Respells (tree'.find? id) (tree.find? id) := h.find? id
  have hmem : ∀ n ∈ tree.find? id, n ∈ tree.root.descendants := fun _ => List.mem_of_find?_eq_some
  rw [selectorParts, selectorParts, Tree.get, Tree.get]
  generalize tree'.find? id = found', tree.find? id = found at hfind hmem
  cases hfind with
  | none => rfl
  | @some m n hrespells =>
    obtain ⟨hskeleton, hspells⟩ := hrespells
    have hkind := Node.kind_of_skeleton hskeleton
    show (if m.kind = .selector then _ else _) = (if n.kind = .selector then _ else _)
    rw [hkind]
    split
    next hselector =>
      have hn := hmem n rfl
      have hparts := hproper n hn
      have hchildren : m.children.map Node.skeleton = n.children.map Node.skeleton := by
        rw [← m.children_skeleton, hskeleton, n.children_skeleton]
      have hstepped : m.Stepped := hparts.stepped.of_roles hkind (Node.roles_of_skeleton hskeleton)
        fun _ => Node.kinds_of_skeleton hskeleton
      rw [hstepped.tokens (hkind.trans hselector), hparts.stepped.tokens hselector] at hspells
      have htokens := hparts.tokens_part hselector fun c hc =>
        hproper c (Node.mem_descendants_trans hn (Node.mem_descendants_child hc))
      rw [Node.partsFrom_of_spells htokens hchildren .none hspells]
    next => rfl

end Tree

namespace Session

variable {s : Session}

theorem respells_regroup {f : List Token → List Token} (hf : Token.Redeals f)
    (hspells : ∀ ts, Token.Spells (f ts) ts) (tree : Tree) :
    (tree.mapRoot (·.regroup f)).root.Respells tree.root := by
  have htokens : (tree.root.regroup f).tokens = f tree.root.tokens := tree.root.tokens_regroup hf
  exact ⟨(Tree.sameButTrivia_regroup hf tree).nodes, htokens ▸ hspells _⟩

/-- Whatever was read and whatever calls were made on the tree, the parts of a selector begin and end
with simple ones and have no two combinators in a row. Without the descendant combinators they are
the children of the selector in order; a descendant combinator stands between two simple selectors
that follow each other if there is text between their tokens, and only then. A move of trivia leaves
the parts of all selectors as they are. -/
theorem selector_parts_faithful (p : Production) (config : Config) (t : Text) (calls : List Call) :
    let s := Session.run ⟨Tree.parse p config t, false⟩ calls
    (∀ n ∈ s.tree.root.descendants, n.kind = .selector →
      ∃ parts, s.tree.selectorParts n.id = .ok parts ∧ n.HasParts parts) ∧
    ∀ id, s.leadAll.tree.selectorParts id = s.tree.selectorParts id ∧
      s.trailAll.tree.selectorParts id = s.tree.selectorParts id := by
  intro s
  have hparsed := Tree.sound_parse p config t
  have hsound : s.tree.Sound [] := sound_run hparsed calls
  have hproper : ∀ x ∈ s.tree.root.descendants, x.Proper :=
    proper_run hparsed (fun x hx => (orderly_parse p config t x hx).1) calls
  refine ⟨fun n hn hkind => ?_, fun id => ⟨?_, ?_⟩⟩
  · have hspaced : n.Spaced := Node.Obeys.descendant (spaced_run p config t calls) hn
    refine ⟨_, Tree.selectorParts_of_mem hsound hn hkind, ?_⟩
    refine (hproper n hn).hasParts hkind (fun c hc => ?_) hspaced
    exact hproper c (Node.mem_descendants_trans hn (Node.mem_descendants_child hc))
  · rw [leadAll_eq]
    exact Tree.selectorParts_of_respells
      (respells_regroup Token.redeals_trailingToLeading Token.spells_trailingToLeading _) hproper id
  · rw [trailAll_eq]
    exact Tree.selectorParts_of_respells
      (respells_regroup Token.redeals_trailAll Token.spells_trailAll _) hproper id

/-- Two simple selectors that touch, two with a comment between them, and two with a combinator. -/
theorem selector_parts_faithful_comment :
    let s := Session.run ⟨Tree.parse .styleSheet {} "a.b /**/c > d{}".toList, false⟩
      [.edit .leadingToTrailing]
    let parts := [.simple 0, .simple 1, .combinator .descendant none, .simple 2,
      .combinator .child (some 3), .simple 4]
    ∃ n ∈ s.tree.root.descendants, n.kind = .selector ∧ n.HasParts parts ∧
      s.tree.selectorParts n.id = .ok parts ∧ s.leadAll.tree.selectorParts n.id = .ok parts := by
  intro s parts
  obtain ⟨hparts, hmoved⟩ :=
    selector_parts_faithful .styleSheet {} "a.b /**/c > d{}".toList [.edit .leadingToTrailing]
  obtain ⟨n, hn, hid, hkind⟩ : ∃ n ∈ s.tree.root.descendants, n.id = 5 ∧ n.kind = .selector := by
    decide +kernel
  obtain ⟨found, hfound, hfaithful⟩ := hparts n hn hkind
  have hread : (s.tree.selectorParts 5).toOption = some parts := by decide +kernel
  rw [← hid, hfound] at hread
  obtain rfl := Option.some.inj hread
  exact ⟨n, hn, hkind, hfaithful, hfound, (hmoved n.id).1.trans hfound⟩

end Session

end CssTree
