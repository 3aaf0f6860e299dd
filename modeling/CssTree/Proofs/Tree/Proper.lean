import CssTree.Proofs.Tree.Payload
import CssTree.Proofs.Tree.Slots

namespace CssTree

namespace Listing

variable {l : Listing} {n next : Node} {index : Nat}

/-- A comma stands behind each item but the last, and nothing behind that one. -/
def Separated (l : Listing) : Prop :=
  (∀ kind ∈ l.separatorKinds.dropLast, kind = some .comma) ∧
    ∀ kind ∈ l.separatorKinds.getLast?, kind = none

theorem Separated.of_kinds {l' : Listing} (h : l.Separated)
    (hkinds : l'.separatorKinds = l.separatorKinds) : l'.Separated := by
  rw [Separated, hkinds]
  exact h

/-- The kind of the separator behind each item. -/
theorem Separated.separator? (h : l.Separated) (i : Nat) :
    (l.items.separator? i).map (·.kind) = if i + 1 < l.items.size then some .comma else none := by
  have hlength : l.separatorKinds.length = l.items.size := by
    rw [separatorKinds, List.length_map, Punctuated.size]
  have hkind : (l.items.separator? i).map (·.kind) = l.separatorKinds[i]?.join := by
    rw [Punctuated.separator?, separatorKinds, List.getElem?_map]
    cases l.items.pairs[i]? <;> simp
  rw [hkind]
  split
  next hi =>
    have hlt : i < l.separatorKinds.dropLast.length := by
      rw [List.length_dropLast]
      omega
    have hget : l.separatorKinds.dropLast[i] = l.separatorKinds[i] := List.getElem_dropLast hlt
    have hcomma := h.1 _ (List.getElem_mem hlt)
    rw [hget] at hcomma
    rw [List.getElem?_eq_getElem (by omega), hcomma]
    rfl
  next hi =>
    cases hget : l.separatorKinds[i]? with
    | none => rfl
    | some kind =>
      obtain ⟨hlt, -⟩ := List.getElem?_eq_some_iff.mp hget
      have hlast : l.separatorKinds.getLast? = some kind := by
        rw [List.getLast?_eq_getElem?, ← hget]
        congr 1
        omega
      rw [h.2 kind hlast]
      rfl

/-- An item with a comma behind it is put in front of another one. -/
theorem Separated.insert {comma : Token} (h : l.Separated) (hindex : index < l.items.size)
    (hcomma : comma.kind = .comma) : (l.insert index n (some comma)).Separated := by
  obtain ⟨front, back, hpairs, hfront⟩ := exists_front (Nat.le_of_lt hindex)
  obtain ⟨pair, back, rfl⟩ : ∃ pair rest, back = pair :: rest := by
    refine List.exists_cons_of_ne_nil ?_
    rintro rfl
    rw [Punctuated.size, hpairs, List.append_nil] at hindex
    omega
  rw [Separated, separatorKinds, hpairs] at h
  rw [Separated, separatorKinds, pairs_insert hpairs hfront]
  simp only [List.map_append, List.map_cons, List.dropLast_append_cons, List.dropLast_cons_cons,
    List.getLast?_append_cons, List.getLast?_cons_cons] at h ⊢
  refine ⟨fun kind hkind => ?_, h.2⟩
  rcases List.mem_append.mp hkind with hkind | hkind
  · exact h.1 kind (List.mem_append_left _ hkind)
  · rcases List.mem_cons.mp hkind with rfl | hkind
    · rw [Option.map_some, hcomma]
    · exact h.1 kind (List.mem_append_right _ hkind)

/-- An item is put behind the last one, which gets a comma if there is one. -/
theorem Separated.append {comma : Token} (h : l.Separated) (hcomma : comma.kind = .comma)
    (hindex : l.items.size = index) :
    ((l.setSeparator (index - 1) (some comma)).insert index n none).Separated := by
  rcases List.eq_nil_or_concat l.items.pairs with hnil | ⟨others, last, hpairs⟩
  · have hset : (l.setSeparator (index - 1) (some comma)).items.pairs = [] ++ [] := by
      rw [setSeparator, Punctuated.setSeparator, hnil]
      exact hnil
    rw [Separated, separatorKinds, pairs_insert hset (by simp [← hindex, Punctuated.size, hnil])]
    simp
  · rw [List.concat_eq_append] at hpairs
    have hothers : others.length = index - 1 := by
      rw [← hindex, Punctuated.size, hpairs]
      simp
    have hset : (l.setSeparator (index - 1) (some comma)).items.pairs =
        others ++ [(last.1, some comma)] := pairs_setSeparator hpairs hothers
    have hlength : (others ++ [(last.1, some comma)]).length = index := by
      rw [← hindex, Punctuated.size, hpairs]
      simp
    rw [Separated, separatorKinds, pairs_insert (hset.trans (List.append_nil _).symm) hlength]
    rw [Separated, separatorKinds, hpairs] at h
    simp only [List.map_append, List.map_cons, List.map_nil, List.dropLast_concat,
      List.getLast?_concat] at h ⊢
    refine ⟨fun kind hkind => ?_, by simp⟩
    rcases List.mem_append.mp hkind with hkind | hkind
    · exact h.1 kind hkind
    · rw [List.mem_singleton.mp hkind, Option.map_some, hcomma]

/-- An item that is not the last is taken out with the comma behind it. -/
theorem Separated.remove (h : l.Separated) (hget : l.items.get? index = some n)
    (hnext : l.items.get? (index + 1) = some next) : (l.remove index).Separated := by
  obtain ⟨front, separator, back, hpairs, hfront⟩ := exists_item hget
  obtain ⟨pair, back, rfl⟩ : ∃ pair rest, back = pair :: rest := by
    refine List.exists_cons_of_ne_nil ?_
    rintro rfl
    simp [Punctuated.get?, hpairs, ← hfront] at hnext
  rw [Separated, separatorKinds, hpairs] at h
  rw [Separated, separatorKinds, pairs_remove hpairs hfront]
  simp only [List.map_append, List.map_cons, List.dropLast_append_cons, List.dropLast_cons_cons,
    List.getLast?_append_cons, List.getLast?_cons_cons] at h ⊢
  refine ⟨fun kind hkind => h.1 kind ?_, h.2⟩
  rcases List.mem_append.mp hkind with hkind | hkind
  · exact List.mem_append_left _ hkind
  · exact List.mem_append_right _ (List.mem_cons_of_mem _ hkind)

/-- The last item is taken out with the comma in front of it. -/
theorem Separated.removeLast (h : l.Separated) (hselectors : l.kind = .selectors)
    (hget : l.items.get? index = some n) (hnext : l.items.get? (index + 1) = none) :
    (l.removeLast index).Separated := by
  obtain ⟨front, separator, hpairs, hfront⟩ := exists_last hget hnext
  rw [Separated, separatorKinds, hpairs] at h
  simp only [List.map_append, List.map_cons, List.map_nil, List.dropLast_concat] at h
  rcases pairs_removeLast hpairs hfront with ⟨hnone, heq⟩ | ⟨others, last, comma, rfl, -, heq⟩
  · rw [Separated, separatorKinds, heq]
    rcases List.eq_nil_or_concat front with rfl | ⟨others, last, rfl⟩
    · simp
    · -- an item in front of the last one has a comma behind it
      have hcomma : last.2.map (·.kind) = some .comma := h.1 _ (by simp)
      have hindex : others.length = index - 1 ∧ 0 < index := by
        rw [List.concat_eq_append, List.length_append, List.length_singleton] at hfront
        omega
      have hlast : l.items.separator? (index - 1) = last.2 := by
        rw [Punctuated.separator?, hpairs, ← hindex.1]
        simp
      rw [commaBefore, hselectors, hlast] at hnone
      simp [hindex.2] at hnone
      simp [hnone] at hcomma
  · rw [Separated, separatorKinds, heq]
    simp only [List.map_append, List.map_cons, List.map_nil, List.dropLast_concat,
      List.getLast?_concat] at h ⊢
    exact ⟨fun kind hkind => h.1 kind (List.mem_append_left _ hkind), by simp⟩

end Listing

namespace Node

variable {n m : Node}

/-- A well-formed node that holds what its kind asks for, whose children fit its slots and whose
separators and delimiters stand where they belong. -/
structure Proper (n : Node) : Prop where
  formed : n.Formed
  carries : ∃ p, n.Carries p
  slots : n.Slotted
  stepped : n.Stepped
  commas : ∀ l, n.listing? = some l → l.kind = .selectors → l.Separated
  comment : ∀ d, n.declaration? = some d → d.opening = none → d.closing = none

/-- No declaration of a list runs into the item behind it. -/
def Terminated (n : Node) : Prop :=
  n.kind = .declarationList → ∀ c ∈ n.children.dropLast, c.needsSemicolon = false

/-- Most kinds ask for nothing but their fields, children in their slots, and steps where there are
any. -/
theorem proper_of_kind (hcarries : ∃ p, n.Carries p) (h : n.Slotted) (hstepped : n.Stepped)
    (hlist : n.kind.listShape? = none) (hdeclaration : n.kind ≠ .declaration) : n.Proper := by
  refine ⟨formed_of_kind hlist hdeclaration, hcarries, h, hstepped, fun l hl => ?_, fun d hd => ?_⟩
  · rw [listing?_eq, hlist] at hl
    cases hl
  · rw [Node.declaration?, if_neg hdeclaration] at hd
    cases hd

theorem proper_of_listing {kind : ListKind} {opening : Nat} {l : Listing} (h : n.Slotted)
    (hshape : n.kind.listShape? = some (kind, opening)) (hl : l.Formed kind opening)
    (hclosing : n.kind.Closes l.closing.length) (hends : l.items.endsSeparated = false)
    (hseparated : kind = .selectors → l.Separated) (helements : n.elements = l.elements) :
    n.Proper := by
  have hformed : n.Formed := formed_of_listing hshape hl hends helements
  have hcarries := carries_of_listing hshape hl hclosing helements
  refine ⟨hformed, hcarries, h, .of_listShape? hshape, fun l' hl' hkind => ?_, fun d hd => ?_⟩
  · rw [listing?_eq, hshape, helements, Option.map_some, hl.ofElements] at hl'
    obtain rfl := Option.some.inj hl'
    exact hseparated (hl.kind ▸ hkind)
  · obtain ⟨hk, -, -⟩ := hformed.of_declaration? hd
    simp [hk, NodeKind.listShape?] at hshape

theorem proper_of_declaration {d : Declaration} (h : n.Slotted) (hkind : n.kind = .declaration)
    (hd : d.Formed) (hclosing : d.opening = none → d.closing = none)
    (helements : n.elements = d.elements) : n.Proper := by
  have hstepped : n.Stepped := .of_kind (by simp [hkind]) (by rw [hkind]; rfl)
  have hformed : n.Formed := formed_of_declaration hkind hd helements
  have hcarries := carries_of_declaration hkind helements
  refine ⟨hformed, hcarries, h, hstepped, fun l hl => ?_, fun d' hd' => ?_⟩
  · simp [listing?_eq, hkind, NodeKind.listShape?] at hl
  · rw [Node.declaration?, if_pos hkind, helements, hd.ofElements?] at hd'
    obtain rfl := Option.some.inj hd'
    exact hclosing

namespace Proper

/-- A node with the roles of a proper one is proper if its children fit its slots and go from step
to step. -/
theorem of_roles (h : n.Proper) (hslots : m.Slotted) (hstepped : m.Stepped) (hkind : m.kind = n.kind)
    (hroles : m.elements.map Element.role = n.elements.map Element.role) : m.Proper := by
  have hm : m.Formed := h.formed.of_roles hkind hroles
  have hcarries := carries_of_roles h.carries hkind hroles
  refine ⟨hm, hcarries, hslots, hstepped, fun l hl hselectors => ?_, fun d hd hopening => ?_⟩
  · obtain ⟨kind, opening, hshape, hformed, -, helements⟩ := hm.of_listing? hl
    rw [helements] at hroles
    obtain ⟨l', hl', hkinds, helements'⟩ := hformed.of_roles hroles.symm
    have hlisting : n.listing? = some l' := by
      rw [listing?_eq, ← hkind, hshape, helements', Option.map_some, hl'.ofElements]
    have hselectors' : l'.kind = .selectors := by rw [hl'.kind, ← hformed.kind, hselectors]
    exact (h.commas l' hlisting hselectors').of_kinds hkinds.symm
  · obtain ⟨d', hd', hsame⟩ := declaration?_of_roles hm hd hkind.symm hroles.symm
    have hnone : ∀ {o o' : Option Token}, o'.isSome = o.isSome → (o' = none ↔ o = none) := by
      intro o o' h
      rw [← Option.not_isSome_iff_eq_none, h, Option.not_isSome_iff_eq_none]
    have hclosing' := h.comment d' hd' ((hnone hsame.opening).mpr hopening)
    exact (hnone hsame.closing).mp hclosing'

theorem of_skeleton (h : n.Proper) (heq : m.skeleton = n.skeleton) : m.Proper := by
  have hkind := kind_of_skeleton heq
  have hroles := roles_of_skeleton heq
  have hstepped := h.stepped.of_roles hkind hroles fun _ => kinds_of_skeleton heq
  exact h.of_roles (h.slots.of_skeleton heq) hstepped hkind hroles

theorem of_content (h : n.Proper) (hkind : m.kind = n.kind) (helements : m.elements = n.elements) :
    m.Proper := by
  have hkinds : m.children.map Node.kind = n.children.map Node.kind :=
    congrArg (fun es => (Element.nodes es).map Node.kind) helements
  have hroles := congrArg (List.map Element.role) helements
  have hstepped := h.stepped.of_roles hkind hroles fun _ => hkinds
  exact h.of_roles (h.slots.of_kinds hkind hkinds) hstepped hkind hroles

/-- Around a node that is changed, nodes stay proper if their slots admit what it becomes and a part
of a selector keeps its kind. -/
theorem updateAll {id : NodeId} {f : Node → Node} (h : n.Proper)
    (hf : ∀ slot c, n.Holds slot c → c.id = id → slot.admits (f c).kind)
    (hpart : ∀ c, n.Holds .selectorPart c → c.id = id → (f c).kind = c.kind) :
    ({ n with elements := Element.updateAll id f n.elements } : Node).Proper :=
  h.of_roles (h.slots.updateAll hf) (h.stepped.updateAll h.slots hpart) rfl
    (Element.roles_updateAll id f n.elements)

end Proper

/-- Whether a semicolon is missing can be told by the roles of the elements. -/
theorem needsSemicolon_of_roles (hn : n.Formed) (hkind : m.kind = n.kind)
    (hroles : m.elements.map Element.role = n.elements.map Element.role) :
    m.needsSemicolon = n.needsSemicolon := by
  by_cases hdeclaration : n.kind = .declaration
  · obtain ⟨d, -, -, hd⟩ := hn.declaration? hdeclaration
    obtain ⟨d', hd', hsame⟩ := declaration?_of_roles hn hd hkind hroles
    rw [Node.needsSemicolon, Node.needsSemicolon, hd, hd', Option.any_some, Option.any_some,
      Declaration.needsSemicolon, Declaration.needsSemicolon, Declaration.isDisabled,
      Declaration.isDisabled, hsame.opening, ← Option.not_isSome, ← Option.not_isSome,
      hsame.semicolon]
  · rw [Node.needsSemicolon, Node.needsSemicolon, Node.declaration?, Node.declaration?,
      if_neg hdeclaration, if_neg (hkind ▸ hdeclaration)]

theorem needsSemicolon_of_skeleton (hn : n.Formed) (heq : m.skeleton = n.skeleton) :
    m.needsSemicolon = n.needsSemicolon :=
  needsSemicolon_of_roles hn (kind_of_skeleton heq) (roles_of_skeleton heq)

namespace Terminated

theorem of_kind (h : n.kind ≠ .declarationList) : n.Terminated := fun hk => absurd hk h

theorem of_children (h : n.Terminated) (hkind : m.kind = n.kind)
    (hchildren : m.children = n.children) :
    m.Terminated := by
  rw [Terminated, hkind, hchildren]
  exact h

theorem of_skeleton (h : n.Terminated) (hn : ∀ c ∈ n.children, c.Formed)
    (heq : m.skeleton = n.skeleton) : m.Terminated := by
  have hneeds : ∀ {cs ds : List Node}, (∀ c ∈ cs, c.Formed) →
      ds.map skeleton = cs.map skeleton →
        ds.map needsSemicolon = cs.map needsSemicolon := by
    intro cs
    induction cs with
    | nil =>
      intro ds _ heq
      rw [List.map_eq_nil_iff.mp heq]
    | cons c cs ih =>
      intro ds hcs heq
      obtain ⟨d, ds, rfl, hd, hds⟩ := List.map_eq_cons_iff.mp heq
      rw [List.map_cons, List.map_cons, needsSemicolon_of_skeleton (hcs c List.mem_cons_self) hd,
        ih (fun c hc => hcs c (List.mem_cons_of_mem _ hc)) hds]
  have hchildren : m.children.map skeleton = n.children.map skeleton := by
    rw [← m.children_skeleton, heq, n.children_skeleton]
  intro hk c hc
  have hmem : c.needsSemicolon ∈ (n.children.map needsSemicolon).dropLast := by
    rw [← hneeds hn hchildren, ← List.map_dropLast]
    exact List.mem_map_of_mem hc
  rw [← List.map_dropLast] at hmem
  obtain ⟨c', hc', heq'⟩ := List.mem_map.mp hmem
  rw [← heq']
  exact h (by rw [← kind_of_skeleton heq, hk]) c' hc'

/-- What a tree with the same skeleton holds runs into nothing either. -/
theorem all_of_skeleton (h : ∀ x ∈ n.descendants, x.Terminated)
    (hn : ∀ x ∈ n.descendants, x.Formed) (heq : m.skeleton = n.skeleton) :
    ∀ x ∈ m.descendants, x.Terminated :=
  Node.all_of_skeleton (fun x hx _ hy => (h x hx).of_skeleton
    (fun _ hc => hn _ (mem_descendants_trans hx (mem_descendants_child hc))) hy) heq

/-- Around a node that is changed, nothing runs into what follows it if the changed node does not
where it is followed. -/
theorem updateAll {id : NodeId} {f : Node → Node} (h : n.Terminated)
    (hn : ∀ c ∈ n.children, c.Formed)
    (hf : ∀ c ∈ n.children.dropLast, c.id = id → (f c).needsSemicolon = false) :
    ({ n with elements := Element.updateAll id f n.elements } : Node).Terminated := by
  have hchildren : ({ n with elements := Element.updateAll id f n.elements } : Node).children =
      n.children.map (·.update id f) := Element.nodes_updateAll id f n.elements
  intro hk c hc
  rw [hchildren, ← List.map_dropLast] at hc
  obtain ⟨c, hmem, rfl⟩ := List.mem_map.mp hc
  by_cases hid : c.id = id
  · have hc := hf c hmem hid
    obtain ⟨i, kind, span, es⟩ := c
    rwa [Node.update, if_pos hid]
  · have hformed := hn c (List.dropLast_subset _ hmem)
    have hneeds := h hk c hmem
    obtain ⟨i, kind, span, es⟩ := c
    rw [Node.update, if_neg hid, ← hneeds]
    exact needsSemicolon_of_roles hformed rfl (Element.roles_updateAll id f es)

end Terminated

end Node

end CssTree
