import CssTree.Proofs.Edit.Remake
import CssTree.Proofs.Grammar.Filled
import CssTree.Proofs.Grammar.Neat
import CssTree.Proofs.Shape
import CssTree.Proofs.Tree.Beside

namespace CssTree

open CssTree.Frame

/-- The places for declarations are in blocks. -/
theorem NodeKind.slots_declaration {kind : NodeKind} {count : Nat} {slot : Slot}
    (hslot : slot ∈ kind.slots count) (hadmits : slot.admits .declaration = true) :
    kind = .declarationList := by
  have hdeclaration : slot = .declaration := by
    cases slot <;> first | rfl | cases hadmits
  subst hdeclaration
  cases kind <;> simp only [NodeKind.slots] at hslot <;> first
  | rfl
  | (split at hslot <;> simp at hslot)
  | simp at hslot

/-- Elements are nodes if they are where nodes are expected. -/
theorem Element.eq_nodes_of_append {fs es es' : List Element} {n : Node}
    (h : fs ++ .node n :: es = (nodes fs).map .node ++ .node n :: es') :
    fs = (nodes fs).map .node := by
  induction fs with
  | nil => rfl
  | cons e fs ih =>
    cases e with
    | node m => exact congrArg _ (ih (List.cons_eq_cons.mp h).2)
    | token t =>
      rw [nodes_token] at h
      cases hnodes : nodes fs <;> rw [hnodes] at h <;> cases h

/-- What stands in a block in front of other things. -/
structure Node.Settled (c : Node) : Prop where
  tailed : c.tailed = true
  closed : c.needsSemicolon = false
  /-- It is a declaration, or holds none. -/
  plain : ∀ x ∈ c.descendants, x.kind = .declaration → x = c

namespace Node

variable {n c : Node} {F : Frame}

/-- A block is a brace, its items, and what closes it. -/
theorem Formed.block (h : n.Formed) (hkind : n.kind = .declarationList) :
    ∃ (o : Token) (closing : List Token),
      n.elements = .token o :: (n.children.map .node ++ closing.map .token) := by
  obtain ⟨l, hl, -, helements, hlisting⟩ := h.listing? (by rw [hkind]; rfl)
  obtain ⟨o, hopening⟩ := List.length_eq_one_iff.mp hl.opening
  refine ⟨o, l.closing, ?_⟩
  rw [helements, hl.elements_eq (by decide), hopening, h.children_listing hlisting]
  rfl

theorem Proper.closing (h : n.Proper) (hneat : n.Neat) {d : Declaration}
    (hd : n.declaration? = some d) : d.closing.isSome = d.opening.isSome := by
  cases hopening : d.opening with
  | none => rw [h.comment d hd hopening]
  | some o =>
    have hclosing := hneat.closed d hd (by simp [hopening])
    rw [Option.isSome_iff_ne_none.mpr hclosing]
    rfl

theorem Orderly.settled (h : n.Orderly) (hneat : n.Every Neat) (hkind : n.kind = .declarationList)
    (hc : c ∈ n.children.dropLast) : c.Settled := by
  have hchild : c ∈ n.children := List.dropLast_subset _ hc
  have hmem := mem_descendants_child hchild
  obtain ⟨hproper, hterminated⟩ := h n n.mem_descendants_self
  obtain ⟨hcproper, -⟩ := h c hmem
  have hclosed := hterminated hkind c hc
  have hshape : n.kind.listShape? = some (.declarations, 1) := by
    rw [hkind]
    rfl
  have hadmits : Slot.declaration.admits c.kind = true :=
    (slotted_iff_of_listShape? hshape).mp hproper.slots c hchild
  have hcases : c.kind = .declaration ∨ c.kind = .error := by simpa [Slot.admits] using hadmits
  rcases hcases with hdeclaration | herror
  · obtain ⟨d, hd⟩ : ∃ d, c.declaration? = some d := by
      obtain ⟨d, -, -, hd⟩ := hcproper.formed.declaration? hdeclaration
      exact ⟨d, hd⟩
    refine ⟨hcproper.formed.tailed hd ?_, hclosed, fun x hx hx' => ?_⟩
    · rw [needsSemicolon, hd] at hclosed
      exact Declaration.ended (hcproper.closing (hneat c hmem) hd) hclosed
    · rw [descendants_children] at hx
      refine (List.mem_cons.mp hx).resolve_right fun hx => ?_
      obtain ⟨k, hk, hx⟩ := List.mem_flatMap.mp hx
      have htakes : Slot.declaration.Takes c := ⟨hadmits, h.child hchild⟩
      have hdeclares : x.kind.declares = false := htakes.plain_children k hk x hx
      rw [hx'] at hdeclares
      cases hdeclares
  · have hchildren : c.children = [] := by
      have hslots := hcproper.slots
      rw [Slotted, herror] at hslots
      exact List.forall₂_nil_left_iff.mp hslots
    refine ⟨?_, hclosed, fun x hx _ => ?_⟩
    · rw [tailed_eq]
      refine Element.tailed_of_nodes hchildren fun hnil => ?_
      refine (hneat n n.mem_descendants_self).filled hkind c hchild ?_
      rw [← c.tokens_eq, hnil]
      rfl
    · rw [descendants_children, hchildren] at hx
      exact List.mem_singleton.mp hx

/-- What stands in front of a node of a block: the brace, and what cannot run into it. -/
theorem Orderly.front (hfill : (F.fill n).Orderly) (hneat : (F.fill n).Every Neat)
    (hkind : F.kind = .declarationList) :
    ∃ (o : Token) (ns : List Node), F.front = .token o :: ns.map .node ∧ ∀ c ∈ ns, c.Settled := by
  obtain ⟨o, closing, helements⟩ := (hfill _ (mem_descendants_self _)).1.formed.block hkind
  have hchildren : (F.fill n).children = Element.nodes F.front ++ n :: Element.nodes F.back :=
    Element.nodes_append _ _
  rw [hchildren, List.map_append, List.map_cons, List.append_assoc] at helements
  refine ⟨o, Element.nodes F.front, ?_, fun c hc => hfill.settled hneat hkind ?_⟩
  · cases hfront : F.front with
    | nil =>
      rw [fill, hfront] at helements
      cases helements
    | cons e fs =>
      rw [fill, hfront] at helements
      obtain ⟨rfl, hrest⟩ := List.cons_eq_cons.mp helements
      exact congrArg _ (Element.eq_nodes_of_append hrest)
  · rw [hchildren, List.dropLast_append_cons]
    exact List.mem_append_left _ hc

theorem Orderly.of_mem (h : n.Orderly) (hc : c ∈ n.descendants) : c.Orderly :=
  fun x hx => h x (mem_descendants_trans hc hx)

/-- No declaration stands below another one. -/
theorem Orderly.not_below {m : Node} {d : Declaration} (h : n.Orderly) (hd : n.declaration? = some d)
    (hm : m.kind = .declaration) (hne : m ≠ n) : m ∉ n.descendants := by
  intro hmem
  rw [descendants_children] at hmem
  obtain ⟨k, hk, hmem⟩ := List.mem_flatMap.mp ((List.mem_cons.mp hmem).resolve_left hne)
  have hkind : n.kind = .declaration :=
    ((h n n.mem_descendants_self).1.formed.of_declaration? hd).1
  have htakes : Slot.declaration.Takes n := ⟨by rw [hkind]; rfl, h⟩
  have hdeclares : m.kind.declares = false := htakes.plain_children k hk m hmem
  rw [hm] at hdeclares
  cases hdeclares

end Node

namespace Tree

variable {config : Config} {t : Text} {C : List Frame} {n : Node} {d : Declaration}

theorem strung_parse (p : Production) (config : Config) (t : Text) :
    (Tree.parse p config t).root.Strung .origin :=
  let ⟨hlaid, hwhole⟩ := laid_parse p config t
  (Node.laid_iff_of_whole hwhole).mp hlaid

theorem neat_parse (config : Config) (t : Text) :
    (Tree.parse .styleSheet config t).root.Every Node.Neat :=
  let base := Grammar.State.start config .empty t
  have hsound : base.upcoming.Sound base.taken.reverse := Stream.sound_ofText config t
  (Grammar.styleSheet_neat hsound base (.refl base)).2

/-- What a declaration of a style sheet stands in. -/
theorem block_parse (hroot : (Tree.parse .styleSheet config t).root = plug C n)
    (hd : n.declaration? = some d) : Lexeme.Filled (Token.lexemesOf n.tokens) ∧
      ∃ (C' : List Frame) (F : Frame) (o : Token) (ns : List Node), C = C' ++ [F] ∧
        F.front = .token o :: ns.map .node ∧ (∀ c ∈ ns, c.Settled) ∧
          Lexeme.Filled (Token.lexemesOf (Element.tokensOf F.front)) := by
  obtain ⟨hsheet, horderly⟩ : (Tree.parse .styleSheet config t).root.kind = .styleSheet ∧
      (Tree.parse .styleSheet config t).root.Orderly :=
    Grammar.yields_of_takesRules Grammar.styleSheet_holds (.start config .empty t)
  have hneat := neat_parse config t
  have hrules := filled_rules config t
  rw [hroot] at horderly hneat hrules hsheet
  have hn : n ∈ (plug C n).descendants := mem_plug C n
  have hkind : n.kind = .declaration := ((horderly n hn).1.formed.of_declaration? hd).1
  rcases List.eq_nil_or_concat C with rfl | ⟨C', F, rfl⟩
  · exact absurd (hsheet.symm.trans hkind) (by decide)
  rw [List.concat_eq_append, plug_append] at *
  have hmem : F.fill n ∈ (plug C' (F.fill n)).descendants := mem_plug C' _
  have hchild : ∀ (G : Frame) (x : Node), x ∈ (G.fill x).children := fun G x =>
    Node.mem_children.mpr (List.mem_append_right _ List.mem_cons_self)
  have hblock : F.kind = .declarationList := by
    have hslotted := (horderly _ hmem).1.slots
    obtain ⟨slot, hholds⟩ := hslotted.exists_slot (hchild F n)
    have hadmits := hslotted.admits hholds
    rw [hkind] at hadmits
    exact NodeKind.slots_declaration (List.of_mem_zip hholds).1 hadmits
  obtain ⟨o, ns, hfront, hsettled⟩ := (horderly.of_mem hmem).front
    (fun x hx => hneat x (Node.mem_descendants_trans hmem hx)) hblock
  cases C' with
  | nil => exact absurd (hsheet.symm.trans hblock) (by decide)
  | cons G C'' =>
    have hrule := hrules _ (hchild G (plug C'' (plug [F] n)))
    rw [← plug_append] at hrule
    obtain ⟨hfilled, hfronts⟩ := filled_plug hrule
    exact ⟨hfilled, G :: C'', F, o, ns, rfl, hfront, hsettled,
      hfronts F (List.mem_append_right _ (List.mem_singleton_self F))⟩

/-- Every declaration of a style sheet. -/
theorem site_parse (hn : n ∈ (Tree.parse .styleSheet config t).root.descendants)
    (hd : n.declaration? = some d) : (Tree.parse .styleSheet config t).Site n d := by
  obtain ⟨C, hroot⟩ := Node.exists_plug hn
  have hproper := (Session.orderly_parse .styleSheet config t n hn).1
  exact ⟨sound_parse .styleSheet config t, strung_parse .styleSheet config t, hn, hd,
    (block_parse hroot hd).1, hproper.closing (neat_parse config t n hn) hd⟩

/-- No declaration of a style sheet holds another one. -/
theorem not_below_parse {n' : Node} {d' : Declaration}
    (hn : n ∈ (Tree.parse .styleSheet config t).root.descendants) (hd : n.declaration? = some d)
    (hn' : n' ∈ (Tree.parse .styleSheet config t).root.descendants) (hd' : n'.declaration? = some d')
    (hne : n ≠ n') : n' ∉ n.descendants := by
  have horderly := Session.orderly_parse .styleSheet config t
  have hkind : n'.kind = .declaration := ((horderly n' hn').1.formed.of_declaration? hd').1
  exact (horderly.of_mem hn).not_below hd hkind hne.symm

end Tree

end CssTree
