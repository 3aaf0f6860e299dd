import CssTree.Proofs.Grammar.Filled
import CssTree.Proofs.Token.Pieces
import CssTree.Proofs.Tree.Chain

namespace CssTree

theorem Element.headed_append {es fs : List Element} (h : Element.nodes es = [])
    (hfs : Element.Headed fs) : Element.Headed (es ++ fs) := by
  cases es with
  | nil => exact hfs
  | cons e es =>
    cases e with
    | token t => trivial
    | node n => simp at h

/-- What the grammar makes of these kinds starts with a token. -/
def NodeKind.begins : NodeKind → Bool
  | .styleSheet | .valueList | .mediaQueryList | .error => false
  | _ => true

namespace Stream

variable {s s' : Stream}

/-- The first token does not start with a line feed, unless trivia leads it. -/
def Unbroken (s : Stream) : Prop :=
  ∀ t ∈ s.tokens.head?, t.leading = [] → t.text.head? ≠ some '\n'

theorem Unbroken.foldFront (h : s.Unbroken) : s.foldFront.Unbroken := by
  induction s using Stream.foldFront.induct with
  | case1 last => rwa [Stream.foldFront]
  | case2 t ts last hopen ih =>
    rw [Stream.foldFront, if_pos hopen]
    refine ih ?_
    cases hrest : (commentRun ts).2 with
    | nil => simp [Unbroken, Stream.prependLeading]
    | cons u us =>
      intro v hv hleading
      obtain rfl := Option.some.inj hv
      simp [CssTree.foldRun] at hleading
  | case3 t ts last hopen => rwa [Stream.foldFront, if_neg hopen]

theorem Refolds.unbroken (h : s.Refolds s') (hs : s.Unbroken) : s'.Unbroken := by
  induction h with
  | refl => exact hs
  | fold ts _ ih =>
    cases ts with
    | nil => exact Unbroken.foldFront ih
    | cons t ts => exact ih

/-- A text that starts with a line feed starts with white space. -/
theorem kind_ofText_break (comments : Bool) (cs : Text) :
    ∃ l ls, Lexeme.ofText comments ('\n' :: cs) = l :: ls ∧ l.kind = .whitespace := by
  rw [Lexeme.ofText, cutThroughComments_plain (by simp), cut_cons, first_blank (by decide)]
  cases comments <;> exact ⟨_, _, rfl, rfl⟩

theorem unbroken_ofText (config : Config) (t : Text) : (ofText config t).Unbroken := by
  intro u hu hleading hbreak
  obtain ⟨us, htokens⟩ := List.head?_eq_some_iff.mp hu
  obtain ⟨cs, hcs⟩ := List.head?_eq_some_iff.mp hbreak
  have hlexemes := lexemesOf_ofText config t
  rw [toList, htokens, List.cons_append, Token.lexemesOf_cons, Token.lexemes, hleading] at hlexemes
  have hkind : u.kind = .whitespace := by
    obtain ⟨-, -, htext, -⟩ := Lexeme.laid_ofText config.comments t
    cases hls : Lexeme.ofText config.comments t with
    | nil =>
      rw [hls] at hlexemes
      have heof : u.toLexeme.text = [] := congrArg Lexeme.text (List.cons.inj hlexemes).1
      rw [heof] at hcs
      cases hcs
    | cons l ls =>
      rw [hls] at hlexemes htext
      obtain rfl : u.toLexeme = l := (List.cons.inj hlexemes).1
      rw [Lexeme.render_cons, hcs] at htext
      obtain ⟨l, ls', hsame, hl⟩ := kind_ofText_break config.comments (cs ++ Lexeme.render ls)
      rw [← List.cons_append, htext, hls] at hsame
      rwa [(List.cons.inj hsame).1]
  have hcanonical := (present_ofText config t).canonical u (by
    rw [eq_of_tokens htokens, foldAll_keep (by rw [hkind]; decide)]
    exact List.mem_cons_self)
  have htrivia := hcanonical.kind
  rw [hkind] at htrivia
  cases htrivia

end Stream

namespace Grammar

theorem Took.unbroken {config : Config} {arena : Arena} {t : Text} {s : State}
    {es : List Element} (h : Took (.start config arena t) es s) :
    ∀ u ∈ (Element.tokensOf es).head?, u.leading = [] → u.text.head? ≠ some '\n' := by
  intro u hu
  have hfront := h.folded.unbroken (Stream.unbroken_ofText config t)
  obtain ⟨us, htokens⟩ := List.head?_eq_some_iff.mp hu
  refine hfront u ?_
  show u ∈ (Element.tokensOf es ++ s.upcoming.tokens).head?
  rw [htokens]
  rfl

/-- A node for a slot starts with a token, if it is of a kind that does. -/
def Begins (slot : Slot) (n : Node) : Prop :=
  slot.admits n.kind = true ∧ (n.kind.begins = true → n.Headed)

variable {slot : Slot} {n : Node} {ns : List Node} {es : List Element}

/-- In these slots stand selectors, their parts and rules. -/
theorem Begins.headed (h : Begins slot n) (herror : n.isError = false)
    (hslot : slot = .rule ∨ slot = .selector ∨ slot = .selectorPart ∨ slot = .selectors ∨
      slot = .keyframeSelectors) : n.Headed := by
  obtain ⟨hadmits, hheaded⟩ := h
  refine hheaded ?_
  have hkind : n.kind ≠ .error := by simpa [Node.isError] using herror
  rcases hslot with rfl | rfl | rfl | rfl | rfl <;> revert hadmits hkind <;>
    cases n.kind <;> decide

theorem punctuatedNodes_headed {l : Punctuated Node Token} (hcommas : l.Commas)
    (h : ∀ n ∈ l.values, n.Headed) : Element.Headed (punctuatedNodes l) := by
  obtain ⟨front, last, hpairs, -⟩ := hcommas
  rw [Punctuated.values, hpairs] at h
  rw [punctuatedNodes, hpairs]
  cases front with
  | nil => exact h last (by simp)
  | cons pair front => exact h pair.1 (by simp)

theorem punctuatedTokens_headed {l : Punctuated Token Token} (hcommas : l.Commas) :
    Element.Headed (punctuatedTokens l) := by
  obtain ⟨front, last, hpairs, -⟩ := hcommas
  rw [punctuatedTokens, hpairs]
  cases front <;> trivial

/-- A simple selector that has to come does come. -/
theorem parts_headed (h : ∀ n ∈ ns, Begins .selectorPart n)
    (hsteps : NodeKind.Steps true (ns.map Node.kind)) : Element.Headed (ns.map .node) := by
  cases ns with
  | nil => cases hsteps
  | cons n ns =>
    have hn := h n List.mem_cons_self
    refine hn.headed ?_ (by simp)
    have hadmits := hn.1
    rw [Node.isError]
    revert hadmits
    cases n.kind <;> decide

/-- What the grammar makes starts with a token, if what it makes it of does. -/
theorem makes_begins {kind : NodeKind} (id : NodeId) (span : Span)
    (h : Makes Begins slot kind es) : Begins slot ⟨id, kind, span, es⟩ := by
  obtain ⟨⟨p, rfl, rfl, hmade⟩, hadmits, -, hchildren⟩ := h
  refine ⟨hadmits, fun hbegins => ?_⟩
  have hns (ns : Option Namespace) (t : Token) :
      Element.Headed (Namespace.elements? ns ++ [.token t]) :=
    Element.headed_append (Element.nodes_namespace ns) trivial
  cases p
  case selector parts =>
    rw [Payload.elements, Element.nodes_map_node] at hchildren
    exact parts_headed (Makes.of_replicate hchildren) hmade
  case selectorList l =>
    have hnodes : Element.nodes l.elements = l.values := Element.nodes_punctuatedNodes l
    rw [Payload.elements, hnodes] at hchildren
    refine punctuatedNodes_headed hmade.1 fun n hn => ?_
    exact (Makes.of_replicate hchildren n hn).headed (hmade.2 n hn) (by simp)
  case keyframeSelectorList l => exact punctuatedTokens_headed hmade
  case rule selectors block =>
    obtain ⟨hselectors, -⟩ := List.forall₂_cons.mp hchildren
    exact hselectors.headed hmade (by simp)
  case keyframeRule selectors block =>
    obtain ⟨hselectors, -⟩ := List.forall₂_cons.mp hchildren
    exact hselectors.headed hmade (by simp)
  case typeSelector ns name => exact hns ns name
  case universalSelector ns star => exact hns ns star
  case declaration d =>
    exact Element.headed_append (Element.nodes_ofToken? d.opening) trivial
  all_goals trivial

theorem declarationBlock_begins : Yields declarationBlock (Begins .declarationBlock) := by
  have hheaded : Yields declarationBlock fun n => n.kind.begins = true → n.Headed := by
    refine Yields.skip fun entered => Yields.ite (fun _ => ?_) fun _ => ?_
    · refine Yields.skip fun opening => Yields.skip fun ns => Yields.skip fun closing => ?_
      exact Yields.skip fun _ _ _ => trivial
    · exact Yields.skip fun ts _ hbegins => by cases hbegins
  exact fun s => ⟨(declarationBlock_takes s).admits, hheaded s⟩

/-- Whatever the state, selectors and rules start with a token. -/
def begins : RuleLogic :=
  .along (.anywhere Begins makes_begins) (fun _ => steady_true) (fun _ => trivial)
    (fun s _ => ⟨trivial, declarationBlock_begins s⟩) (fun _ => True) fun _ _ _ _ => trivial

theorem yields_of_begins {α : Type} {p : Parser α} {φ : α → Prop} (h : begins.Holds 0 0 p φ) :
    Yields p φ := fun s => (h s trivial).2

end Grammar

namespace Production

open Grammar

variable {p : Production}

theorem read_headed (hp : p = rule ∨ p = keyframeRule ∨ p = selector) :
    Finds p.read fun n => n.isError = false → n.Headed := by
  have hrule (keyframes nested : Bool) :
      Yields (ruleItem keyframes nested) fun n => n.isError = false → n.Headed :=
    (yields_of_begins (ruleItem_holds keyframes nested)).mono fun n hn herror =>
      hn.headed herror (by simp)
  have hselector : Finds Grammar.selector fun n => n.isError = false → n.Headed :=
    yields_of_begins (selector_holds.mono fun n hn herror => hn.1.headed herror (by simp))
  rcases hp with rfl | rfl | rfl
  · exact Finds.of_yields (hrule false false)
  · exact Finds.of_yields (hrule true false)
  · exact hselector

/-- A text that can be read as a rule or a selector is one that begins with a token. -/
theorem parse_headed (hp : p = rule ∨ p = keyframeRule ∨ p = selector) (config : Config)
    (arena : Arena) (t : Text) (herror : (p.parse config arena t).1.isError = false) :
    (p.parse config arena t).1.Headed := by
  have hread : Finds p.readAll fun n => n.isError = false → n.Headed := by
    refine Finds.skip fun kind => Finds.ite (fun _ => Finds.fail) fun _ => ?_
    refine (read_headed hp).bind fun n hn => Finds.skip fun kind => ?_
    exact Finds.ite (fun _ => Finds.ret hn) fun _ => Finds.fail
  have hfragment : Yields p.fragment fun n => n.isError = false → n.Headed := by
    refine (Yields.attempt hread).bind fun r hr => ?_
    cases r with
    | none => exact Yields.skip fun ts _ herror => nomatch herror
    | some n =>
      refine Yields.skip fun last => Yields.ret fun herror => ?_
      split at herror
      next hlast =>
        rw [if_pos hlast]
        exact hr n rfl herror
      next hlast =>
        have hskeleton : (n.appendTrailing last.leading).respan.skeleton = n.skeleton := by
          rw [Node.skeleton_respan, Node.skeleton_appendTrailing]
        rw [Node.isError, Node.kind_of_skeleton hskeleton] at herror
        rw [if_neg hlast]
        exact (hr n rfl herror).of_skeleton hskeleton
  have hparse : (p.parse config arena t).1 = (p.fragment.run (.start config arena t)).1 := by
    show (p.parser.run (.start config arena t)).1 = _
    rw [parser, if_neg (by rcases hp with rfl | rfl | rfl <;> decide)]
  rw [hparse] at herror ⊢
  exact hfragment _ herror

/-- The first token of a text that can be read does not start with a line feed, unless trivia leads
it. -/
theorem unbroken_parse (hp : p ≠ styleSheet) (config : Config) {arena : Arena}
    (harena : arena.Fresh) (t : Text) (herror : (p.parse config arena t).1.isError = false) :
    ∀ u ∈ (p.parse config arena t).1.tokens.head?, u.leading = [] → u.text.head? ≠ some '\n' := by
  have hparse : (p.parse config arena t).1 = (p.fragment.run (.start config arena t)).1 := by
    rw [parse, parser, if_neg hp]
    rfl
  rw [hparse] at herror ⊢
  have hread := attempt_keeps (sound_start config harena t) (readAll_tries hp)
  cases hrun : (attempt p.readAll).run (.start config arena t) with | mk result s => ?_
  rw [hrun] at hread
  cases result with
  | some m =>
    obtain ⟨⟨htook, hend⟩, -⟩ := hread
    have hfront := htook.unbroken
    rw [Element.tokensOf_node, Element.tokensOf_nil, List.append_nil] at hfront
    rw [congrArg Prod.fst (fragment_read hrun hend)]
    dsimp only
    split
    next => exact hfront
    next =>
      rw [Node.tokens_respan, Node.tokens_appendTrailing]
      intro u hu
      cases hm : m.tokens with
      | nil =>
        rw [hm] at hu
        cases hu
      | cons t ts =>
        have hfirst := hfront t (by rw [hm]; rfl)
        rw [hm] at hu
        cases ts <;> obtain rfl := Option.some.inj hu <;> exact hfirst
  | none =>
    have hkind : (p.fragment.run (.start config arena t)).1.kind = .error := by
      rw [congrArg Prod.fst (fragment_kept hrun)]
      rfl
    simp [Node.isError, hkind] at herror
end Production

end CssTree
