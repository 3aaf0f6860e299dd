import CssTree.Proofs.Grammar.Production
import CssTree.Proofs.Grammar.Steady
import CssTree.Proofs.Tree.Refill

namespace CssTree

namespace Grammar

variable {slot : Slot} {kind : NodeKind} {es : List Element}

/-- A node that is in order by itself, made of nodes that fit their slots. -/
theorem orderly_mk {slots : List Slot} {id : NodeId} {span : Span}
    (hchildren : List.Forall₂ Slot.Takes slots (Element.nodes es))
    (hproper : (Node.mk id kind span es).Proper)
    (hterminated : (Node.mk id kind span es).Terminated) : (Node.mk id kind span es).Orderly := by
  intro x hx
  rw [Node.descendants_mk, Element.descendantsOf_eq] at hx
  rcases List.mem_cons.mp hx with rfl | hx
  · exact ⟨hproper, hterminated⟩
  · obtain ⟨c, hc, hx⟩ := List.mem_flatMap.mp hx
    obtain ⟨i, hi, rfl⟩ := List.getElem_of_mem hc
    have hi' : i < slots.length := by rwa [hchildren.length_eq]
    have htakes := (List.forall₂_iff_get.mp hchildren).2 i hi' hi
    exact htakes.orderly x hx

/-- A part of a selector has a token of its own. -/
theorem exists_token_of_part {p : Payload} (h : p.kind.isSelectorPart = true) :
    ∃ t, .token t ∈ p.elements := by
  cases p
  case combinator t => exact ⟨t, by simp [Payload.elements]⟩
  case typeSelector ns name => exact ⟨name, by simp [Payload.elements]⟩
  case universalSelector ns star => exact ⟨star, by simp [Payload.elements]⟩
  case attributeSelector opening _ _ _ _ _ _ => exact ⟨opening, by simp [Payload.elements]⟩
  case classSelector dot name => exact ⟨dot, by simp [Payload.elements]⟩
  case idSelector hash => exact ⟨hash, by simp [Payload.elements]⟩
  case pseudoSelector colon _ _ _ _ => exact ⟨colon, by simp [Payload.elements]⟩
  all_goals cases h

/-- What the grammar makes goes from step to step. -/
theorem stepped_of_made {p : Payload} (h : p.Made) (id : NodeId) (span : Span) :
    (Node.mk id p.kind span p.elements).Stepped := by
  refine ⟨fun hkind => ?_, fun hkind => ?_, fun hkind => ?_⟩
  · cases p
    case selector parts =>
      show NodeKind.Steps true ((Element.nodes (parts.map .node)).map Node.kind)
      rw [Element.nodes_map_node]
      exact h
    all_goals cases hkind
  · cases p
    case selector parts => simp [Payload.elements, Element.role]
    all_goals cases hkind
  · obtain ⟨t, ht⟩ := exists_token_of_part hkind
    exact ⟨some t.kind, List.mem_map_of_mem (f := Element.role) ht, by simp⟩

/-- A list of nodes between tokens. -/
theorem list_proper (opening closing : List Token) {listKind : ListKind} {ns : List Node}
    {id : NodeId} {span : Span} (hslots : (Node.mk id kind span es).Slotted)
    (hshape : kind.listShape? = some (listKind, opening.length)) (hlist : listKind ≠ .selectors)
    (hcloses : kind.Closes closing.length)
    (hes : es = opening.map .token ++ ns.map .node ++ closing.map .token) :
    (Node.mk id kind span es).Proper := by
  refine Node.proper_of_listing hslots hshape (Listing.formed_ofList hlist opening ns closing) hcloses
    (Listing.endsSeparated_ofList ns) (fun h => absurd h hlist) ?_
  rw [Listing.elements_ofList]
  exact hes

/-- A list of selectors with commas between them. -/
theorem selectorList_proper {l : Punctuated Node Token} {id : NodeId} {span : Span}
    (hslots : (Node.mk id .selectorList span (punctuatedNodes l)).Slotted) (hcommas : l.Commas) :
    (Node.mk id .selectorList span (punctuatedNodes l)).Proper := by
  obtain ⟨front, last, hpairs, hcommas⟩ := hcommas
  let listing : Listing := ⟨.selectors, [], l, []⟩
  have hlisting : listing.Formed .selectors 0 := ⟨rfl, rfl, fun h => absurd rfl h, fun _ => rfl⟩
  have helements : punctuatedNodes l = listing.elements := by
    simp [Listing.elements, punctuatedNodes, listing]
  have hseparated : listing.Separated := by
    simp only [Listing.Separated, Listing.separatorKinds, listing, hpairs, List.map_append,
      List.map_cons, List.map_nil, List.dropLast_concat, List.getLast?_concat]
    refine ⟨fun kind hkind => ?_, by simp⟩
    obtain ⟨pair, hpair, rfl⟩ := List.mem_map.mp hkind
    exact hcommas pair hpair
  exact Node.proper_of_listing hslots rfl hlisting trivial (endsSeparated_of_last hpairs)
    (fun _ => hseparated) helements

/-- What the grammar makes for a slot fits it. -/
theorem makes_takes {id : NodeId} {span : Span} (h : Makes Slot.Takes slot kind es) :
    slot.Takes ⟨id, kind, span, es⟩ := by
  obtain ⟨⟨p, rfl, rfl, hmade⟩, hadmits, hdeclares, hchildren⟩ := h
  have hslots : (Node.mk id p.kind span p.elements).Slotted := hchildren.imp fun _ _ h => h.admits
  refine ⟨hadmits, orderly_mk hchildren ?_ (.of_kind fun hkind => ?_)⟩
  · by_cases hlist : p.kind.listShape? = none
    · refine Node.proper_of_kind ⟨p, Node.carries_iff.mpr ⟨rfl, rfl⟩⟩ hslots
        (stepped_of_made hmade id span) hlist fun hkind => ?_
      rw [show p.kind = .declaration from hkind] at hdeclares
      cases hdeclares
    · cases p
      case ruleList opening rules closing =>
        exact list_proper [opening] closing.toList hslots rfl (by decide)
          Option.length_toList_le rfl
      case selectorList l => exact selectorList_proper hslots hmade.1
      case styleSheet rules ending =>
        rw [show (Payload.styleSheet rules ending).kind = .styleSheet from rfl,
          slot.not_admits_styleSheet] at hadmits
        cases hadmits
      case declarationList opening declarations closing => cases hdeclares
      all_goals exact absurd rfl hlist
  · rw [show p.kind = .declarationList from hkind] at hdeclares
    cases hdeclares

/-- Whatever the state, preludes and what they are made of give what fits. -/
def takes : PreludeLogic := .along (.anywhere Slot.Takes fun _ _ => makes_takes) fun _ => steady_true

theorem yields_of_takes {α : Type} {p : Parser α} {φ : α → Prop} (h : takes.Holds 0 0 p φ) :
    Yields p φ := fun s => (h s trivial).2

/-- Behind a declaration that needs a semicolon its block ends. -/
def Closes (n : Node) (s : State) : Prop :=
  n.needsSemicolon = true →
    s.upcoming.head.kind = .closeBrace ∨ s.upcoming.head.kind = .eof

/-- A step that gives a declaration, or something in its place. -/
def DeclarationRead (n : Node) (s : State) : Prop := Slot.declaration.Takes n ∧ Closes n s

/-- A step of which the result is all that matters before others. -/
theorem Finds.before {α β : Type} {φ : α → Prop} {p : Attempt α} {f : α → Attempt β}
    {Q : β → State → Prop} (hp : Finds p φ)
    (hf : ∀ a, φ a → Tries (fun _ => True) (f a) Q fun _ => True) :
    Tries (fun _ => True) (p >>= f) Q fun _ => True := by
  refine Tries.seq (R := fun _ _ => True) (fun s _ => ?_) hf
  have hfinds := hp s
  cases hr : (p.run.run s).1 with
  | none => trivial
  | some a => exact ⟨trivial, hfinds a hr⟩

theorem atBlockEnd_head : Keeps (fun _ => True) Grammar.atBlockEnd fun b s => b = true →
    s.upcoming.head.kind = .closeBrace ∨ s.upcoming.head.kind = .eof := by
  intro s _ hb
  have hrun : Grammar.atBlockEnd.run s = (((s.settle 0).upcoming.nth 0).kind = .closeBrace ||
    ((s.settle 0).upcoming.nth 0).kind = .eof, s.settle 0) := rfl
  rw [hrun, ← Stream.head_eq_nth] at hb
  rw [hrun]
  simpa using hb

theorem declarationEnd_closes (disabled semicolon : Bool) :
    Tries (fun _ => True) (declarationEnd disabled semicolon) (fun es s =>
      ∃ closing : Option Token, es = Element.ofToken? closing ∧
        (∀ t ∈ closing, t.kind = .closeComment) ∧ (disabled = false → closing = none) ∧
          (disabled = false → semicolon = false →
            s.upcoming.head.kind = .closeBrace ∨ s.upcoming.head.kind = .eof)) fun _ => True := by
  unfold declarationEnd
  split
  next hdisabled =>
    refine (Finds.require .closeComment).before fun t ht => Tries.ret fun s _ => ?_
    exact ⟨some t, rfl, by simpa using ht, by simp [hdisabled], by simp [hdisabled]⟩
  next =>
    split
    next hsemicolon =>
      exact Tries.ret fun s _ => ⟨none, rfl, by simp, by simp, by simp [hsemicolon]⟩
    next =>
      refine Tries.call atBlockEnd_head fun b => ?_
      split
      next hb => exact Tries.ret fun s hs => ⟨none, rfl, by simp, by simp, fun _ _ => hs hb⟩
      next => exact Tries.fail fun s _ => trivial

theorem declarationAfter_read {opening : Option Token}
    (hopening : ∀ t ∈ opening, t.kind = .openComment) :
    Tries (fun _ => True) (declarationAfter opening) DeclarationRead fun _ => True := by
  refine (Finds.require .ident).before fun name hname => ?_
  refine (Finds.require .colon).before fun colon _ => ?_
  have hvalues : Yields (declarationValue [.semicolon, .closeComment]) Slot.values.Takes :=
    yields_of_takes (declarationValue_holds _)
  refine (Finds.of_yields hvalues).before fun value hvalue => ?_
  have hmarks : Yields important fun r => ∀ n ∈ r, Slot.important.Takes n :=
    yields_of_takes important_holds
  refine (Finds.of_yields hmarks).before fun mark hmark => ?_
  refine (Finds.of_yields (Yields.eat .semicolon)).before fun semicolon hsemicolon => ?_
  refine (declarationEnd_closes _ _).bind fun ending => ?_
  rintro s ⟨closing, rfl, hclosing, hnone, hend⟩
  let d : Declaration := ⟨opening, name, colon, value, mark, semicolon, closing⟩
  have hd : d.Formed := ⟨hopening, by simp [d, hname], hsemicolon, hclosing⟩
  have helements : Element.ofToken? opening ++ .token name :: .token colon :: .node value ::
      Element.ofNode? mark ++ Element.ofToken? semicolon ++ Element.ofToken? closing =
        d.elements := by simp [Declaration.elements, d]
  rw [helements]
  have hchildren : List.Forall₂ Slot.Takes
      (NodeKind.declaration.slots (Element.nodes d.elements).length)
      (Element.nodes d.elements) := by
    rw [d.nodes_elements]
    cases mark with
    | none => simpa [Declaration.nodes, NodeKind.slots, d] using hvalue
    | some mark =>
      simpa [Declaration.nodes, NodeKind.slots, d] using ⟨hvalue, hmark mark rfl⟩
  refine ⟨⟨rfl, orderly_mk hchildren ?_ (.of_kind (by simp))⟩, fun hneeds => ?_⟩
  · refine Node.proper_of_declaration (hchildren.imp fun _ _ h => h.admits) rfl hd (fun h => ?_) rfl
    exact hnone (by rw [show opening = none from h]; rfl)
  · have hread : ∀ id span, (Node.mk id .declaration span d.elements).declaration? = some d :=
      fun id span => hd.ofElements?
    rw [Node.needsSemicolon, hread, Option.any_some, Declaration.needsSemicolon,
      Bool.and_eq_true, Declaration.isDisabled] at hneeds
    exact hend (by simpa [d] using hneeds.2) (by simpa [d] using hneeds.1)

/-- What holds of a step that may fail holds of an attempt at it. -/
theorem attempt_post {α : Type} {P : State → Prop} {p : Attempt α} {Q : α → State → Prop}
    (hp : Tries P p Q fun _ => True) :
    Keeps P (attempt p) fun r s => r.elim True (Q · s) := by
  intro s hs
  have hrun := hp s hs
  rw [run_attempt]
  cases hr : (p.run.run s).1 with
  | none => simp
  | some a => simpa [hr] using hrun

theorem declaration_read :
    Tries (fun _ => True) declaration DeclarationRead fun _ => True := by
  have hplain : Tries (fun _ => True) (declarationAfter none) DeclarationRead fun _ => True :=
    declarationAfter_read (by simp)
  have hdisabled : Tries (fun s => s.upcoming.head.kind = .openComment) disabledDeclaration
      DeclarationRead fun _ => True := by
    intro s hs
    have hopening : ∀ t ∈ some s.take.1, t.kind = .openComment := by
      obtain ⟨taken, ⟨tokens, last⟩, place, guard, limit, arena, created⟩ := s
      cases tokens <;> simpa [State.take, Stream.head] using hs
    exact declarationAfter_read hopening s.take.2 trivial
  have hcomment : Tries (fun s => s.upcoming.head.kind = .openComment) commentOrDeclaration
      DeclarationRead fun _ => True := by
    refine Tries.bind (Tries.lift (attempt_post hdisabled)) fun r => ?_
    cases r with
    | none => exact hplain
    | some n => exact Tries.ret fun s hs => hs
  intro s _
  rw [declaration_run]
  split
  next hopen => exact hcomment s hopen
  next => exact hplain s trivial

theorem declaration_takes : Finds declaration Slot.declaration.Takes := by
  intro s n hn
  have hread := declaration_read s trivial
  rw [Option.mem_def.mp hn] at hread
  exact hread.1

theorem needsSemicolon_error {n : Node} (h : n.kind = .error) : n.needsSemicolon = false := by
  simp [Node.needsSemicolon, Node.declaration?, h]

theorem declarationItem_read :
    Tries (fun _ => True) declarationItem DeclarationRead fun _ => True := by
  have hrecover : Yields (recover ⟨[.closeBrace], [.semicolon], false⟩) fun n =>
      Slot.declaration.Takes n ∧ n.kind = .error := fun s =>
    ⟨yields_of_takes (recover_holds rfl _) s, rfl⟩
  have hitem : Tries (fun _ => True) declarationOrError DeclarationRead fun _ => True := by
    refine Tries.bind (Tries.lift (attempt_post declaration_read)) fun r => ?_
    cases r with
    | some n => exact Tries.ret fun s hs => hs
    | none =>
      refine Tries.call (R := fun _ _ => True) (fun _ _ => trivial) fun b => ?_
      split
      next => exact Tries.fail fun _ _ => trivial
      next =>
        refine Tries.run fun s _ => ?_
        obtain ⟨htakes, hkind⟩ := hrecover s
        refine ⟨htakes, fun hneeds => ?_⟩
        rw [needsSemicolon_error hkind] at hneeds
        cases hneeds
  intro s _
  rw [declarationItem_run]
  exact hitem s trivial

/-- Where an item fails there are no more. -/
theorem collect_of_none {α : Type} {item : Attempt α} {s s' : State}
    (h : item.run.run s = (none, s')) (n : Nat) : ((collect item n).run s).1 = [] := by
  cases n with
  | zero => rfl
  | succ n => rw [collect_none h]

/-- The items of a block. Behind one that needs a semicolon there is no other. -/
theorem declarations_read (n : Nat) : Keeps (fun _ => True) (collect declarationItem n) fun ns _ =>
    (∀ c ∈ ns, Slot.declaration.Takes c) ∧ ∀ c ∈ ns.dropLast, c.needsSemicolon = false := by
  induction n with
  | zero => exact Keeps.ret fun _ _ => by simp
  | succ n ih =>
    refine Keeps.bind declarationItem_read fun r => ?_
    cases r with
    | none => exact Keeps.ret fun _ _ => by simp
    | some c =>
      rintro s ⟨htakes, hcloses⟩
      have hrest := ih s trivial
      have hrun : ((collect declarationItem n >>= fun cs => pure (c :: cs) :
          Parser (List Node)).run s).1 = c :: ((collect declarationItem n).run s).1 := rfl
      rw [hrun]
      generalize hcs : ((collect declarationItem n).run s).1 = cs at hrest ⊢
      refine ⟨List.forall_mem_cons.mpr ⟨htakes, hrest.1⟩, ?_⟩
      cases cs with
      | nil => simp
      | cons c' cs =>
        rw [List.dropLast_cons_cons]
        refine List.forall_mem_cons.mpr ⟨?_, hrest.2⟩
        by_contra hneeds
        have hend := declarationItem_run s
        rw [declarationOrError_end (hcloses (by simpa using hneeds))] at hend
        rw [collect_of_none hend] at hcs
        cases hcs

theorem declarationBlock_takes : Yields declarationBlock Slot.declarationBlock.Takes := by
  refine Yields.skip fun entered => Yields.ite (fun _ => ?_) fun _ =>
    yields_of_takes (recoverBlock_holds rfl)
  have hitems : Yields (many declarationItem) fun ns => (∀ c ∈ ns, Slot.declaration.Takes c) ∧
      ∀ c ∈ ns.dropLast, c.needsSemicolon = false := fun s =>
    declarations_read s.upcoming.length s trivial
  refine Yields.skip fun opening => hitems.bind fun ns hns => ?_
  refine Yields.skip fun closing => Yields.skip fun _ s => ⟨rfl, ?_⟩
  have hnodes : Element.nodes (.token opening :: ns.map .node ++ Element.ofToken? closing) = ns := by
    simp
  have hchildren : List.Forall₂ Slot.Takes (.replicate ns.length .declaration) ns :=
    Makes.replicate hns.1
  rw [← hnodes] at hchildren
  refine orderly_mk hchildren (list_proper [opening] closing.toList ?_ rfl (by decide)
    Option.length_toList_le rfl) fun _ c hc => hns.2 c ?_
  · exact hchildren.imp fun _ _ h => h.admits
  · rw [← hnodes]
    exact hc

/-- Whatever the state, rules fit where rules stand, and a style sheet is in order. -/
def takesRules : RuleLogic :=
  .along (.anywhere Slot.Takes fun _ _ => makes_takes) (fun _ => steady_true) (fun _ => trivial)
    (fun s _ => ⟨trivial, declarationBlock_takes s⟩) (fun n => n.kind = .styleSheet ∧ n.Orderly)
    fun {ns} last id span hns => by
      have hnodes : Element.nodes (ns.map .node ++ [.token last]) = ns := by simp
      have hchildren : List.Forall₂ Slot.Takes (.replicate ns.length .rule) ns :=
        Makes.replicate hns
      rw [← hnodes] at hchildren
      refine ⟨rfl, orderly_mk hchildren (list_proper [] [last] ?_ rfl (by decide) rfl rfl)
        (.of_kind fun h => by cases h)⟩
      exact hchildren.imp fun _ _ h => h.admits

theorem yields_of_takesRules {α : Type} {p : Parser α} {φ : α → Prop}
    (h : takesRules.Holds 0 0 p φ) : Yields p φ := fun s => (h s trivial).2

end Grammar

namespace Production

open Grammar

/-- The slot that what is read as a production may stand in; none for a style sheet. -/
def slot? : Production → Option Slot
  | styleSheet => none
  | rule | keyframeRule => some .rule
  | ruleBlock => some .ruleBlock
  | selectorList => some .selectors
  | selector => some .selector
  | declarationBlock => some .declarationBlock
  | declaration => some .declaration
  | values => some .values
  | mediaQueryList => some .media
  | keyframeSelectors => some .keyframeSelectors

variable {p : Production} {slot : Slot}

/-- No part of a selector is read by itself. -/
theorem slot?_ne_selectorPart (p : Production) : p.slot? ≠ some .selectorPart := by
  cases p <;> simp [slot?]

theorem read_takes (hp : p.slot? = some slot) : Finds p.read slot.Takes := by
  cases p <;> cases hp
  case declaration => exact declaration_takes
  case selectorList => exact yields_of_takes (selectorList_holds.mono fun _ h => h.1)
  case selector => exact yields_of_takes (selector_holds.mono fun _ h => h.1)
  case keyframeSelectors => exact yields_of_takes (keyframeSelectors_holds.mono fun _ h => h.1)
  case values => exact Finds.of_yields (yields_of_takes (values_holds _))
  case mediaQueryList => exact Finds.of_yields (yields_of_takes (mediaQueryList_holds _))
  case ruleBlock => exact yields_of_takesRules (requireBlock_holds (ruleBlock_holds _))
  case declarationBlock =>
    exact yields_of_takesRules (requireBlock_holds takesRules.declarationBlock)
  all_goals exact Finds.of_yields (yields_of_takesRules (ruleItem_holds _ _))

/-- Text that is no such fragment is kept in an error node, which may stand there too. -/
theorem fragment_takes (hp : p.slot? = some slot) : Yields p.fragment slot.Takes := by
  have hadmits : slot.admits .error := by
    cases p <;> cases hp <;> rfl
  have hall : Finds p.readAll slot.Takes := by
    refine Finds.skip fun kind => Finds.ite (fun _ => Finds.fail) fun _ => ?_
    refine (read_takes hp).bind fun n hn => Finds.skip fun kind => ?_
    exact Finds.ite (fun _ => Finds.ret hn) fun _ => Finds.fail
  refine (Yields.attempt hall).bind fun r hr => ?_
  cases r with
  | none => exact Yields.skip fun ts => yields_of_takes (errorNode_holds hadmits ts)
  | some n =>
    have htakes := hr n rfl
    refine Yields.skip fun last => Yields.ret ?_
    split
    · exact htakes
    · have hskeleton : (n.appendTrailing last.leading).respan.skeleton = n.skeleton := by
        rw [Node.skeleton_respan, Node.skeleton_appendTrailing]
      exact ⟨Node.kind_of_skeleton hskeleton ▸ htakes.admits, htakes.orderly.of_skeleton hskeleton⟩

/-- Whatever a text is read as, all of it is in order. -/
theorem parse_orderly (p : Production) (config : Config) (arena : Arena) (t : Text) :
    (p.parse config arena t).1.Orderly := by
  show ((p.parser).run (.start config arena t)).1.Orderly
  rw [parser]
  cases hp : p.slot? with
  | none =>
    obtain rfl : p = .styleSheet := by cases p <;> first | rfl | cases hp
    exact (yields_of_takesRules styleSheet_holds _).2
  | some slot =>
    have hne : p ≠ .styleSheet := by
      rintro rfl
      cases hp
    rw [if_neg hne]
    exact (fragment_takes hp _).orderly

theorem parse_admits (hp : p.slot? = some slot) (config : Config) (arena : Arena) (t : Text) :
    slot.admits (p.parse config arena t).1.kind := by
  show slot.admits ((p.parser).run (.start config arena t)).1.kind
  have hne : p ≠ .styleSheet := by
    rintro rfl
    cases hp
  rw [parser, if_neg hne]
  exact (fragment_takes hp _).admits

end Production

end CssTree
