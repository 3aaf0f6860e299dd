import CssTree.Proofs.Text.Locate
import CssTree.Proofs.Token.Lead
import CssTree.Proofs.Token.Reader
import CssTree.Proofs.Tree.Unspanned
import CssTree.Proofs.Validity

namespace CssTree

namespace Token

variable {c : List Lexeme} {t : Token} {ts : List Token}

/-- A token without the trivia attached to it. -/
def core (t : Token) : Token := { t with leading := [], trailing := [] }

theorem core_trailingToLeading (c : List Lexeme) (ts : List Token) :
    (trailingToLeading c ts).map core = ts.map core := by
  induction ts generalizing c with
  | nil => rfl
  | cons t ts ih => cases ts <;> simp_all [trailingToLeading, core]

theorem core_leadingToTrailing (t : Token) (ts : List Token) :
    (t.leadingToTrailing ts).map core = (t :: ts).map core := by
  induction ts generalizing t with
  | nil => rfl
  | cons u ts ih => simp [leadingToTrailing, ih, dropSameLine, core]

/-- Nothing trails a token but the last. -/
theorem trailing_trailingToLeading (c : List Lexeme) (ts : List Token) :
    ∀ t ∈ (trailingToLeading c ts).dropLast, t.trailing = [] := by
  induction ts generalizing c with
  | nil => simp [trailingToLeading]
  | cons t ts ih =>
    cases ts with
    | nil => simp [trailingToLeading]
    | cons u us =>
      have hne : trailingToLeading t.trailing (u :: us) ≠ [] := by
        cases us <;> simp [trailingToLeading]
      rw [trailingToLeading, List.dropLast_cons_of_ne_nil hne]
      exact List.forall_mem_cons.mpr ⟨rfl, ih t.trailing⟩

/-- What leads a token, if anything, ends the line of the token before it. -/
def LeadsOnNewLine (t : Token) : Prop := ∀ l ∈ t.leading.head?, l.breaksLine = true

instance (t : Token) : Decidable t.LeadsOnNewLine :=
  inferInstanceAs (Decidable (∀ l ∈ t.leading.head?, l.breaksLine = true))

theorem leadsOnNewLine_dropSameLine (t : Token) : t.dropSameLine.LeadsOnNewLine := by
  intro l hl
  have hhead := List.head?_dropWhile_not (fun l : Lexeme => !l.breaksLine) t.leading
  rw [show (t.leading.dropWhile fun l => !l.breaksLine).head? = some l from hl] at hhead
  simpa using hhead

theorem leadsOnNewLine_leadingToTrailing (t : Token) (ts : List Token) :
    ∀ u ∈ (t.leadingToTrailing ts).tail, u.LeadsOnNewLine := by
  have hall : ∀ (ts : List Token) (t : Token), t.LeadsOnNewLine →
      ∀ u ∈ t.leadingToTrailing ts, u.LeadsOnNewLine := by
    intro ts
    induction ts with
    | nil => exact fun t ht => List.forall_mem_singleton.mpr ht
    | cons v ts ih =>
      exact fun t ht => List.forall_mem_cons.mpr ⟨ht, ih _ (leadsOnNewLine_dropSameLine v)⟩
  cases ts with
  | nil => simp [leadingToTrailing]
  | cons v ts => exact hall ts _ (leadsOnNewLine_dropSameLine v)

theorem leadingToTrailing_eq_self (h : ∀ u ∈ ts, u.LeadsOnNewLine) :
    t.leadingToTrailing ts = t :: ts := by
  induction ts generalizing t with
  | nil => rfl
  | cons u ts ih =>
    obtain ⟨hu, hts⟩ := List.forall_mem_cons.mp h
    have hsame : u.sameLine = [] ∧ u.dropSameLine = u := by
      obtain ⟨lexeme, value, leading, trailing⟩ := u
      cases leading with
      | nil => exact ⟨rfl, rfl⟩
      | cons l ls =>
        have hl : l.breaksLine = true := hu l rfl
        simp [sameLine, dropSameLine, hl]
    rw [leadingToTrailing, hsame.1, hsame.2, ih hts, List.append_nil]

end Token

mutual

theorem Node.unspanned_refill : ∀ (n : Node) (ts : List Token),
    (n.refill ts).1.unspanned = (n.unspanned.refill ts).1 ∧
      (n.refill ts).2 = (n.unspanned.refill ts).2
  | ⟨id, kind, span, es⟩, ts => by
    have hes := Element.unspanned_refillAll es ts
    simp only [Node.unspanned, Node.pushed, Node.refill, Node.moved_mk, hes, and_self]

theorem Element.unspanned_refillAll : ∀ (es : List Element) (ts : List Token),
    Element.moveSpansOf (fun _ => false) (fun _ _ => default) (fun r => r)
        (Element.refillAll es ts).1 =
      (Element.refillAll
        (Element.moveSpansOf (fun _ => false) (fun _ _ => default) (fun r => r) es) ts).1 ∧
    (Element.refillAll es ts).2 =
      (Element.refillAll
        (Element.moveSpansOf (fun _ => false) (fun _ _ => default) (fun r => r) es) ts).2
  | [], _ => ⟨rfl, rfl⟩
  | .token t :: es, [] => by
    have hes := Element.unspanned_refillAll es []
    simp only [Element.refillAll, Element.moveSpansOf, hes, and_self]
  | .token t :: es, u :: ts => by
    have hes := Element.unspanned_refillAll es ts
    simp only [Element.refillAll, Element.moveSpansOf, Prod.map_fst, Prod.map_snd, hes, id_eq,
      Token.mapSpans_eq_self (f := fun r => r) (t := u) fun _ _ => rfl, and_self]
  | .node n :: es, ts => by
    obtain ⟨hn, hrest⟩ := Node.unspanned_refill n ts
    have hes := Element.unspanned_refillAll es (n.refill ts).2
    rw [hrest] at hes
    have hmoved : n.moveSpans (fun _ => false) (fun _ _ => default) (fun r => r) = n.unspanned := rfl
    simp only [Element.refillAll, Element.moveSpansOf, Prod.map_fst, Prod.map_snd, hmoved, ← hn,
      hrest, hes, id_eq, and_true]
    rfl

end

mutual

/-- A node without tokens becomes a point. -/
theorem Node.span_respanFrom_empty : ∀ {hint : Position} {n : Node}, n.tokens = [] →
    (n.respanFrom hint).span = .point hint
  | hint, ⟨id, kind, span, es⟩, h => by
    have hpoints : ∀ e ∈ Element.respanAll hint es, e.span = .point hint :=
      Element.spans_respanAll_empty h
    rw [Node.respanFrom]
    cases hes : Element.respanAll hint es with
    | nil => rfl
    | cons e fs =>
      rw [hes, List.forall_mem_cons] at hpoints
      have hfold : ∀ {fs : List Element}, (∀ f ∈ fs, f.span = .point hint) →
          fs.foldl (fun (r : Span) f => r.join f.span) (.point hint) = .point hint := by
        intro fs hfs
        induction fs with
        | nil => rfl
        | cons f fs ih =>
          obtain ⟨hf, hfs⟩ := List.forall_mem_cons.mp hfs
          have hjoin : (Span.point hint).join (.point hint) = .point hint := by
            simp [Span.join, Span.point, Position.min_def, Position.max_def]
          rw [List.foldl_cons, hf, hjoin, ih hfs]
      simp only [Element.spanOf?, hpoints.1, hfold hpoints.2, Option.getD_some]

theorem Element.spans_respanAll_empty : ∀ {cursor : Position} {es : List Element},
    Element.tokensOf es = [] → ∀ e ∈ Element.respanAll cursor es, e.span = .point cursor
  | _, [], _ => by simp [Element.respanAll]
  | cursor, .token t :: es, h => by simp at h
  | cursor, .node n :: es, h => by
    rw [Element.tokensOf_node, List.append_eq_nil_iff] at h
    have hn : (n.respanFrom cursor).span = .point cursor := Node.span_respanFrom_empty h.1
    rw [Element.respanAll]
    simp only [hn]
    exact List.forall_mem_cons.mpr ⟨hn, Element.spans_respanAll_empty h.2⟩

end

namespace Node

variable {m n : Node} {f g : List Token → List Token}

theorem start_respan (h : n.tokens = []) : n.respan.span.start = n.span.start := by
  rw [respan, span_respanFrom_empty h, h]
  rfl

theorem respan_respan (n : Node) : n.respan.respan = n.respan :=
  respan_congr n.unspanned_respan start_respan

theorem unspanned_mapTokens (f : List Token → List Token) (n : Node) :
    (n.mapTokens f).unspanned = n.unspanned.mapTokens f := by
  rw [mapTokens, (n.unspanned_refill _).1, mapTokens, tokens_unspanned]

end Node

namespace Token

/-- Trivia moves between tokens, and all else about them stays. -/
structure Redeals (f : List Token → List Token) : Prop extends Regroups f where
  cores : ∀ ts, (f ts).map core = ts.map core

theorem redeals_trailingToLeading : Redeals (trailingToLeading []) :=
  ⟨regroups_trailingToLeading, core_trailingToLeading []⟩

theorem redeals_trailAll : Redeals trailAll := by
  refine ⟨⟨?_, ?_⟩, ?_⟩ <;> rintro (_ | ⟨t, ts⟩)
  · rfl
  · exact lexemesOf_leadingToTrailing t ts
  · rfl
  · exact toLexeme_leadingToTrailing t ts
  · rfl
  · exact core_leadingToTrailing t ts

theorem trailAll_trailAll (ts : List Token) : trailAll (trailAll ts) = trailAll ts := by
  cases ts with
  | nil => rfl
  | cons t ts =>
    have hlead := t.leadsOnNewLine_leadingToTrailing ts
    obtain ⟨u, us, hus⟩ := List.exists_cons_of_ne_nil (t.leadingToTrailing_ne_nil ts)
    rw [hus] at hlead
    change trailAll (t.leadingToTrailing ts) = t.leadingToTrailing ts
    rw [hus]
    exact leadingToTrailing_eq_self hlead

theorem trailingToLeading_trailAll (h : ∀ t ∈ ts.dropLast, t.trailing = []) :
    trailingToLeading [] (trailAll ts) = ts := by
  have hself := trailingToLeading_eq_self h
  cases ts with
  | nil => rfl
  | cons t ts => rw [trailAll, trailingToLeading_leadingToTrailing, hself]

theorem Redeals.length {f : List Token → List Token} (h : Redeals f) (ts : List Token) :
    (f ts).length = ts.length := by
  simpa using congrArg List.length (h.cores ts)

end Token

namespace Node

variable {n : Node} {f g : List Token → List Token}

/-- A node with trivia moved between its tokens and its spans computed anew. -/
def regroup (f : List Token → List Token) (n : Node) : Node := (n.mapTokens f).respan

theorem tokens_regroup (hf : Token.Redeals f) (n : Node) : (n.regroup f).tokens = f n.tokens := by
  rw [regroup, tokens_respan, tokens_mapTokens (hf.length _)]

theorem unspanned_regroup (f : List Token → List Token) (n : Node) :
    (n.regroup f).unspanned = n.unspanned.mapTokens f := by
  rw [regroup, unspanned_respan, unspanned_mapTokens]

theorem start_regroup (hf : Token.Redeals f) (h : n.tokens = []) :
    (n.regroup f).span.start = n.span.start := by
  have htokens : (n.mapTokens f).tokens = [] := by
    rw [tokens_mapTokens (hf.length _), ← List.length_eq_zero_iff, hf.length, h, List.length_nil]
  rw [regroup, start_respan htokens, span_mapTokens]

/-- Trivia that is moved where it is already stays. -/
theorem regroup_regroup (hf : Token.Redeals f) (h : f (f n.tokens) = f n.tokens) :
    (n.regroup f).regroup f = n.regroup f := by
  have hself : (n.regroup f).mapTokens f = n.regroup f :=
    mapTokens_eq_self (by rw [tokens_regroup hf, h])
  rw [regroup, hself, regroup, respan_respan]

/-- Trivia that is moved forth and back is where it was. -/
theorem regroup_back (hg : Token.Redeals g) (h : f (g n.tokens) = n.tokens) :
    (n.regroup g).regroup f = n.respan := by
  have htokens : n.unspanned.tokens = n.tokens := n.tokens_unspanned
  have hunspanned : ((n.regroup g).mapTokens f).unspanned = n.unspanned := by
    rw [unspanned_mapTokens, unspanned_regroup, mapTokens_mapTokens (hg.length _)
      (by rw [htokens, h])]
    exact mapTokens_eq_self (by rw [htokens, h])
  refine respan_congr hunspanned fun hempty => ?_
  rw [span_mapTokens, start_regroup hg hempty]

end Node

namespace Tree

variable {tree : Tree} {f : List Token → List Token}

/-- Trees that hold the same tokens in the same nodes and the same lexemes one after another; which
tokens the trivia is attached to, and where nodes begin and end, may differ. -/
structure SameButTrivia (tree tree' : Tree) : Prop where
  text : tree'.render = tree.render
  config : tree'.config = tree.config
  arena : tree'.arena = tree.arena
  nodes : tree'.root.skeleton = tree.root.skeleton
  tokens : tree'.root.tokens.map Token.core = tree.root.tokens.map Token.core
  lexemes : Token.lexemesOf tree'.root.tokens = Token.lexemesOf tree.root.tokens

/-- The span of every token and every piece of trivia stands for the place of its text in the text
of the tree. -/
def Located (tree : Tree) : Prop :=
  Lexeme.Located (.ofText tree.render) [] (Token.lexemesOf tree.root.tokens)

instance (tree : Tree) : Decidable tree.Located :=
  inferInstanceAs (Decidable (Lexeme.Located _ _ _))

theorem sameButTrivia_regroup (hf : Token.Redeals f) (tree : Tree) :
    tree.SameButTrivia (tree.mapRoot (·.regroup f)) := by
  have htokens := tree.root.tokens_regroup hf
  have hlexemes : Token.lexemesOf (tree.root.regroup f).tokens = Token.lexemesOf tree.root.tokens := by
    rw [htokens, hf.lexemes]
  refine ⟨?_, rfl, rfl, ?_, ?_, hlexemes⟩
  · have hrender := congrArg Lexeme.render hlexemes
    rwa [Token.render_lexemesOf, Token.render_lexemesOf] at hrender
  · exact (Node.skeleton_respan _).trans (Node.skeleton_mapTokens (hf.kinds _))
  · exact (congrArg _ htokens).trans (hf.cores _)

/-- Where the spans of the lexemes are right, all spans are right once trivia was moved. -/
theorem valid_regroup (hf : Token.Redeals f) (hsound : tree.Sound []) (hlocated : tree.Located)
    (hempty : tree.root.tokens = [] → tree.root.span.start = .origin) :
    (tree.mapRoot (·.regroup f)).Valid := by
  have hrender : tree.render = Lexeme.render (Token.lexemesOf tree.root.tokens) :=
    (Token.render_lexemesOf _).symm
  have hlexed : Lexeme.Located (.ofText ([] ++ Lexeme.render (Token.lexemesOf tree.root.tokens) ++ []))
      [] (Token.lexemesOf tree.root.tokens) := by
    rw [List.nil_append, List.append_nil, ← hrender]
    exact hlocated
  obtain ⟨hlaid, hwhole⟩ := hlexed.laid
  have htokens : (tree.root.mapTokens f).tokens = f tree.root.tokens :=
    Node.tokens_mapTokens (hf.length _)
  have hlexemes := hf.lexemes tree.root.tokens
  refine ⟨violations_eq_nil (Node.laid_respan ?_ fun hnil => ?_) ?_, ?_⟩
  · rwa [Token.LaidAll, htokens, hlexemes]
  · rw [Node.span_mapTokens]
    refine hempty ?_
    rw [htokens] at hnil
    rw [← List.length_eq_zero_iff, ← hf.length, hnil, List.length_nil]
  · have hsame := (sameButTrivia_regroup hf tree).lexemes
    rwa [hsame]
  · have hedited : tree.Edited .trailingToLeading (tree.mapRoot (·.regroup f)) .trivia :=
      .regrouped hf.toRegroups (Or.inl rfl)
    exact (hedited.sound hsound).linked.linkFaults_eq_nil

end Tree

namespace Session

/-- A session after trivia was attached to the tokens after it. -/
def leadAll (s : Session) : Session := (s.apply .trailingToLeading).2.1

/-- A session after trivia was attached to the tokens before it as far as it shares their line. -/
def trailAll (s : Session) : Session := (s.apply .leadingToTrailing).2.1

theorem leadAll_eq (s : Session) :
    s.leadAll = s.mapTree (·.mapRoot (·.regroup (Token.trailingToLeading []))) := rfl

theorem trailAll_eq (s : Session) :
    s.trailAll = s.mapTree (·.mapRoot (·.regroup Token.trailAll)) := rfl

theorem leadAll_leadAll (s : Session) : s.leadAll.leadAll = s.leadAll := by
  have hroot := s.tree.root.regroup_regroup Token.redeals_trailingToLeading
    (Token.trailingToLeading_eq_self (Token.trailing_trailingToLeading [] _))
  rw [leadAll_eq s, leadAll_eq, mapTree, mapTree]
  simp only [Tree.mapRoot, hroot]

theorem trailAll_trailAll (s : Session) : s.trailAll.trailAll = s.trailAll := by
  have hroot := s.tree.root.regroup_regroup Token.redeals_trailAll (Token.trailAll_trailAll _)
  rw [trailAll_eq s, trailAll_eq, mapTree, mapTree]
  simp only [Tree.mapRoot, hroot]

theorem leadAll_trailAll {s : Session} (h : ∀ t ∈ s.tree.root.tokens.dropLast, t.trailing = []) :
    s.trailAll.leadAll = s.mapTree (·.mapRoot Node.respan) := by
  have hroot := s.tree.root.regroup_back Token.redeals_trailAll (Token.trailingToLeading_trailAll h)
  rw [leadAll_eq, trailAll_eq, mapTree, mapTree, mapTree]
  simp only [Tree.mapRoot, hroot]

/-- Whatever was read and whatever calls were made on the tree, a move of trivia succeeds and moves
trivia and nothing else. After a move to the token behind, nothing trails a token but the last; after
a move to the token in front, what leads a token but the first begins with a line break. A second
move in the same direction does nothing, and a move to the token behind takes back one to the token in
front, where nothing trailed a token but the last: all tokens have their trivia again, in nodes with
spans computed from them. Where every lexeme is where its span says, all spans are right after a move,
if there is a token or the root lies at the start of the text. -/
theorem trivia_moves (p : Production) (config : Config) (t : Text) (calls : List Call) :
    let s := Session.run ⟨Tree.parse p config t, false⟩ calls
    (s.apply .trailingToLeading).1 = .ok (some .trivia) ∧
      (s.apply .leadingToTrailing).1 = .ok (some .trivia) ∧
      s.tree.SameButTrivia s.leadAll.tree ∧ s.tree.SameButTrivia s.trailAll.tree ∧
      (∀ t ∈ s.leadAll.tree.root.tokens.dropLast, t.trailing = []) ∧
      (∀ t ∈ s.trailAll.tree.root.tokens.tail, t.LeadsOnNewLine) ∧
      s.leadAll.leadAll = s.leadAll ∧ s.trailAll.trailAll = s.trailAll ∧
      ((∀ t ∈ s.tree.root.tokens.dropLast, t.trailing = []) →
        s.trailAll.leadAll = s.mapTree (·.mapRoot Node.respan)) ∧
      (s.tree.Located → (s.tree.root.tokens = [] → s.tree.root.span.start = .origin) →
        s.leadAll.tree.Valid ∧ s.trailAll.tree.Valid) := by
  intro s
  have hsound : s.tree.Sound [] := sound_run (Tree.sound_parse p config t) calls
  have hlead := Token.redeals_trailingToLeading
  have htrail := Token.redeals_trailAll
  refine ⟨rfl, rfl, Tree.sameButTrivia_regroup hlead _, Tree.sameButTrivia_regroup htrail _, ?_, ?_,
    s.leadAll_leadAll, s.trailAll_trailAll, leadAll_trailAll, fun hlocated hempty =>
      ⟨Tree.valid_regroup hlead hsound hlocated hempty,
        Tree.valid_regroup htrail hsound hlocated hempty⟩⟩
  · have htokens : s.leadAll.tree.root.tokens = Token.trailingToLeading [] s.tree.root.tokens :=
      Node.tokens_regroup hlead _
    rw [htokens]
    exact Token.trailing_trailingToLeading [] _
  · have htokens : s.trailAll.tree.root.tokens = Token.trailAll s.tree.root.tokens :=
      Node.tokens_regroup htrail _
    rw [htokens]
    cases s.tree.root.tokens with
    | nil => simp [Token.trailAll]
    | cons t ts => exact t.leadsOnNewLine_leadingToTrailing ts

/-- A comment that shares the line of a selector goes to it and comes back. -/
theorem trivia_moves_remark :
    let s : Session := ⟨Tree.parse .styleSheet {} "a /* b */\n{c: d}".toList, false⟩
    (∀ t ∈ s.tree.root.tokens.dropLast, t.trailing = []) ∧ s.tree.Located ∧
      s.tree.root.tokens ≠ [] ∧ s.trailAll.leadAll = s.mapTree (·.mapRoot Node.respan) ∧
      s.leadAll.tree.Valid ∧ s.trailAll.tree.Valid := by
  intro s
  obtain ⟨-, -, -, -, -, -, -, -, hback, hvalid⟩ :=
    trivia_moves .styleSheet {} "a /* b */\n{c: d}".toList []
  have htrailing : ∀ t ∈ s.tree.root.tokens.dropLast, t.trailing = [] := by decide +kernel
  have hlocated : s.tree.Located := by decide +kernel
  have htokens : s.tree.root.tokens ≠ [] := by decide +kernel
  exact ⟨htrailing, hlocated, htokens, hback htrailing,
    hvalid hlocated fun hnil => absurd hnil htokens⟩

/-- A tree that lost all its tokens can lie away from the start of the text, and there it stays.
Spans of nodes that were left behind before are right after a move forth and back. -/
theorem trivia_moves_emptied :
    (let s : Session := Session.run ⟨Tree.parse .selectorList {} "a".toList, false⟩
      [.edit (.replaceText 1 []), .edit (.appendSelector 2 "a".toList),
        .edit (.removeSelector 2 0), .edit (.removeSelector 2 0)]
    s.tree.Located ∧ s.leadAll.tree.violations ≠ [] ∧ s.trailAll.tree.violations ≠ []) ∧
      (let s : Session := Session.run ⟨Tree.parse .styleSheet {} "a{}\nb{}".toList, false⟩
        [.edit (.replaceText 4 "/**/".toList), .edit (.setSelectors 9 "a,b".toList)]
      (∀ t ∈ s.tree.root.tokens.dropLast, t.trailing = []) ∧ s.trailAll.leadAll ≠ s) := by
  refine ⟨by decide +kernel, by decide +kernel, fun h => ?_⟩
  have hspans := congrArg (fun s => s.tree.root.descendants.map Node.span) h
  revert hspans
  decide +kernel

end Session

end CssTree
