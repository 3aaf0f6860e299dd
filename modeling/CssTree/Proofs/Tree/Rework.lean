import CssTree.Proofs.Tree.Proper

namespace CssTree

/-- All of a tree is proper, and no declaration in it runs into what follows. -/
def Node.Orderly (n : Node) : Prop := ∀ x ∈ n.descendants, x.Proper ∧ x.Terminated

theorem Node.Orderly.of_skeleton {n m : Node} (h : n.Orderly) (heq : m.skeleton = n.skeleton) :
    m.Orderly := by
  have hproper := all_of_skeleton (fun x hx _ hy => (h x hx).1.of_skeleton hy) heq
  have hterminated := Terminated.all_of_skeleton (fun x hx => (h x hx).2)
    (fun x hx => (h x hx).1.formed) heq
  exact fun x hx => ⟨hproper x hx, hterminated x hx⟩

/-- A node that may stand in a slot, with all that it holds in order. -/
structure Slot.Takes (slot : Slot) (n : Node) : Prop where
  admits : slot.admits n.kind
  orderly : n.Orderly

/-- An item that a list may take in, in front of others too. -/
structure ListKind.Takes (kind : ListKind) (item : Node) : Prop extends kind.slot.Takes item where
  closed : kind = .declarations → item.needsSemicolon = false

/-- The mark of an important declaration, of two tokens. -/
def Node.IsMark (n : Node) : Prop := ∃ mark word, n.Carries (.importantValue mark word)

/-- A declaration of the same value, with other delimiters or another mark. -/
structure Declaration.Remade (d d' : Declaration) : Prop where
  formed : d'.Formed
  value : d'.value = d.value
  important : ∀ n ∈ d'.important, n.IsMark ∨ d.important = some n
  closing : d'.opening = none → d'.closing = none

namespace Node

/-- What an edit makes of the node that it changes. -/
inductive Reworked : Node → Node → Prop
  | insert {m item : Node} {l : Listing} {index : Nat} {comma : Option Token} :
      m.listing? = some l → index < l.items.size → l.kind.Takes item →
      (l.kind = .selectors → ∃ t, comma = some t ∧ t.kind = .comma) →
      (l.kind ≠ .selectors → comma = none) →
      Reworked m { m with elements := (l.insert index item comma).elements }
  /-- Behind the last selector comes a comma first. -/
  | append {m item : Node} {l l' : Listing} {comma : Token} :
      m.listing? = some l → l.kind.Takes item → comma.kind = .comma →
      (∀ last ∈ l.items.last?, l.kind.lacksSemicolon last = false) →
      l' = (if l.kind = .selectors then l.setSeparator (l.items.size - 1) (some comma) else l) →
      Reworked m { m with elements := (l'.insert l.items.size item none).elements }
  | remove {m removed next : Node} {l : Listing} {index : Nat} :
      m.listing? = some l → l.items.get? index = some removed →
      l.items.get? (index + 1) = some next →
      Reworked m { m with elements := (l.remove index).elements }
  | removeLast {m removed : Node} {l : Listing} {index : Nat} :
      m.listing? = some l → l.items.get? index = some removed →
      l.items.get? (index + 1) = none →
      Reworked m { m with elements := (l.removeLast index).elements }
  | redeclare {m : Node} {d d' : Declaration} :
      m.declaration? = some d → d.Remade d' → (d'.needsSemicolon → d.needsSemicolon) →
      Reworked m { m with elements := d'.elements }
  /-- Spans, texts and trivia may change before and after. -/
  | alike {m n n' m' : Node} : n.skeleton = m.skeleton → Reworked n n' →
      m'.skeleton = n'.skeleton → Reworked m m'

variable {m m' : Node} {l l' : Listing} {d d' : Declaration}

namespace IsMark

theorem kind (h : m.IsMark) : m.kind = .importantValue := by
  obtain ⟨mark, word, hm⟩ := h
  exact (carries_iff.mp hm).1

theorem children (h : m.IsMark) : m.children = [] := by
  obtain ⟨mark, word, hm⟩ := h
  rw [Node.children, (carries_iff.mp hm).2]
  rfl

theorem descendants (h : m.IsMark) : m.descendants = [m] := by
  rw [m.descendants_children, h.children]
  rfl

theorem proper (h : m.IsMark) : m.Proper := by
  have hstepped : m.Stepped := .of_kind (by simp [h.kind]) (by rw [h.kind]; rfl)
  have hslots : m.Slotted := by
    rw [Slotted, h.kind, h.children]
    exact .nil
  have hcarries : ∃ p, m.Carries p := by
    obtain ⟨mark, word, hm⟩ := h
    exact ⟨_, hm⟩
  exact proper_of_kind hcarries hslots hstepped (by rw [h.kind]; rfl) (by simp [h.kind])

end IsMark

/-- A list with other items is proper if they fit into it. -/
theorem proper_relist (hm : ∀ x ∈ m.descendants, x.Proper) (hl : m.listing? = some l)
    (hformed : ∀ {kind opening}, l.Formed kind opening → l'.Formed kind opening)
    (hclosing : l'.closing = l.closing) (hends : l'.items.endsSeparated = false)
    (hseparated : l.kind = .selectors → l.Separated → l'.Separated)
    (hnodes : ∀ c ∈ l'.nodes, l.kind.Takes c ∨ c ∈ l.nodes) :
    ∀ x ∈ ({ m with elements := l'.elements } : Node).descendants, x.Proper := by
  have hself := hm m m.mem_descendants_self
  obtain ⟨kind, opening, hshape, hlist, -, -⟩ := hself.formed.of_listing? hl
  have hchildren : m.children = l.nodes := hself.formed.children_listing hl
  have hchildren' : ({ m with elements := l'.elements } : Node).children = l'.nodes :=
    l'.nodes_elements
  have hslots : ({ m with elements := l'.elements } : Node).Slotted := by
    refine (slotted_iff_of_listShape? (n := { m with elements := l'.elements }) hshape).mpr ?_
    intro c hc
    rw [hchildren'] at hc
    rcases hnodes c hc with htakes | hold
    · exact hlist.kind ▸ htakes.admits
    · exact (slotted_iff_of_listShape? hshape).mp hself.slots c (hchildren ▸ hold)
  refine all_of_children (m := m) ?_ (fun c hc => ?_) hm
  · have hcloses : m.kind.Closes l'.closing.length := hclosing ▸ closes_of_carries hself.carries hl
    refine proper_of_listing hslots hshape (hformed hlist) hcloses hends (fun hk => ?_) rfl
    have hselectors : l.kind = .selectors := hlist.kind.trans hk
    exact hseparated hselectors (hself.commas l hl hselectors)
  · rw [hchildren'] at hc
    rw [hchildren]
    exact (hnodes c hc).imp_left fun h x hx => (h.orderly x hx).1

/-- In a list with other items nothing runs into what follows it. -/
theorem terminated_relist (hm : ∀ x ∈ m.descendants, x.Terminated) (hformed : m.Formed)
    (hl : m.listing? = some l) (hnodes : ∀ c ∈ l'.nodes, l.kind.Takes c ∨ c ∈ l.nodes)
    (hlast : l.kind = .declarations → (∀ c ∈ l.nodes.dropLast, c.needsSemicolon = false) →
      ∀ c ∈ l'.nodes.dropLast, c.needsSemicolon = false) :
    ∀ x ∈ ({ m with elements := l'.elements } : Node).descendants, x.Terminated := by
  obtain ⟨kind, opening, hshape, hlist, -, -⟩ := hformed.of_listing? hl
  have hchildren : m.children = l.nodes := hformed.children_listing hl
  have hchildren' : ({ m with elements := l'.elements } : Node).children = l'.nodes :=
    l'.nodes_elements
  refine all_of_children (m := m) (fun hk => ?_) (fun c hc => ?_) hm
  · have hdeclarations : l.kind = .declarations := by
      rw [show m.kind = .declarationList from hk] at hshape
      rw [hlist.kind]
      exact (Prod.mk.inj (Option.some.inj hshape)).1.symm
    have hterminated := hm m m.mem_descendants_self hk
    rw [hchildren] at hterminated
    rw [hchildren']
    exact hlast hdeclarations hterminated
  · rw [hchildren'] at hc
    rw [hchildren]
    exact (hnodes c hc).imp_left fun h x hx => (h.orderly x hx).2

/-- A declaration that is remade has children in the same slots, and no new ones but marks. -/
theorem remade_children {Q : Node → Prop} (hformed : m.Formed) (hd : m.declaration? = some d)
    (h : d.Remade d') (hself : Q { m with elements := d'.elements })
    (hmark : ∀ n : Node, n.IsMark → Q n)
    (hm : ∀ x ∈ m.descendants, Q x) :
    ∀ x ∈ ({ m with elements := d'.elements } : Node).descendants, Q x := by
  have hchildren : m.children = d.nodes := hformed.children_declaration hd
  have hchildren' : ({ m with elements := d'.elements } : Node).children = d'.nodes :=
    d'.nodes_elements
  refine all_of_children (m := m) hself (fun c hc => ?_) hm
  rw [hchildren', Declaration.nodes, List.mem_cons, Option.mem_toList] at hc
  rw [hchildren, Declaration.nodes, List.mem_cons, Option.mem_toList]
  rcases hc with rfl | hc
  · exact Or.inr (Or.inl h.value)
  · rcases h.important c hc with hnew | hold
    · refine Or.inl fun x hx => ?_
      rw [hnew.descendants, List.mem_singleton] at hx
      exact hx ▸ hmark c hnew
    · exact Or.inr (Or.inr hold)

theorem proper_remade (hm : ∀ x ∈ m.descendants, x.Proper) (hd : m.declaration? = some d)
    (h : d.Remade d') :
    ∀ x ∈ ({ m with elements := d'.elements } : Node).descendants, x.Proper := by
  have hself := hm m m.mem_descendants_self
  obtain ⟨hkind, -, -⟩ := hself.formed.of_declaration? hd
  refine remade_children hself.formed hd h ?_ (fun n hn => hn.proper) hm
  refine proper_of_declaration ?_ hkind h.formed h.closing rfl
  have hslots := hself.slots
  have hchildren' : ({ m with elements := d'.elements } : Node).children = d'.nodes :=
    d'.nodes_elements
  rw [Slotted, hkind, hself.formed.children_declaration hd] at hslots
  rw [Slotted, hchildren']
  show List.Forall₂ _ (m.kind.slots _) _
  rw [hkind]
  have hvalue : Slot.values.admits d'.value.kind := by
    rw [h.value]
    cases himportant : d.important <;>
      simp_all [Declaration.nodes, NodeKind.slots]
  cases himportant : d'.important with
  | none => simpa [Declaration.nodes, NodeKind.slots, himportant] using hvalue
  | some n =>
    have hmark : n.kind = .importantValue := by
      rcases h.important n himportant with hnew | hold
      · exact hnew.kind
      · simp_all [Declaration.nodes, NodeKind.slots, Slot.admits]
    simpa [Declaration.nodes, NodeKind.slots, himportant, Slot.admits, hmark] using hvalue

theorem terminated_remade (hm : ∀ x ∈ m.descendants, x.Terminated) (hformed : m.Formed)
    (hd : m.declaration? = some d) (h : d.Remade d') :
    ∀ x ∈ ({ m with elements := d'.elements } : Node).descendants, x.Terminated := by
  obtain ⟨hkind, -, -⟩ := hformed.of_declaration? hd
  refine remade_children hformed hd h (.of_kind ?_) (fun n hn => .of_kind (by simp [hn.kind])) hm
  show m.kind ≠ .declarationList
  simp [hkind]

/-- An item goes in front of another one. -/
theorem dropLast_nodes_insert {item : Node} {index : Nat} {separator : Option Token}
    (hindex : index < l.items.size) {c : Node}
    (hc : c ∈ (l.insert index item separator).nodes.dropLast) :
    c = item ∨ c ∈ l.nodes.dropLast := by
  obtain ⟨front, back, hpairs, hfront⟩ := Listing.exists_front (Nat.le_of_lt hindex)
  obtain ⟨pair, back, rfl⟩ : ∃ pair rest, back = pair :: rest := by
    refine List.exists_cons_of_ne_nil ?_
    rintro rfl
    rw [Punctuated.size, hpairs, List.append_nil] at hindex
    omega
  rw [Listing.nodes, Punctuated.values, Listing.pairs_insert hpairs hfront] at hc
  rw [Listing.nodes, Punctuated.values, hpairs]
  simp only [List.map_append, List.map_cons, List.dropLast_append_cons, List.dropLast_cons_cons,
    List.mem_append, List.mem_cons] at hc ⊢
  tauto

theorem takes_of_insert {item : Node} {index : Nat} {separator : Option Token}
    (hindex : index < l.items.size) (h : l.kind.Takes item) :
    ∀ c ∈ (l.insert index item separator).nodes, l.kind.Takes c ∨ c ∈ l.nodes := by
  intro c hc
  have hmem := (Listing.perm_insert (Nat.le_of_lt hindex)).subset hc
  rcases List.mem_cons.mp hmem with rfl | hold
  · exact Or.inl h
  · exact Or.inr hold

theorem nodes_insert_last {item : Node} {separator : Option Token} :
    (l.insert l.items.size item separator).nodes = l.nodes ++ [item] := by
  have hpairs : l.items.pairs = l.items.pairs ++ [] := (List.append_nil _).symm
  have hsize : l.items.pairs.length = l.items.size := rfl
  rw [Listing.nodes, Punctuated.values, Listing.pairs_insert hpairs hsize, List.map_append]
  rfl

theorem dropLast_nodes_remove {removed next c : Node} {index : Nat}
    (hget : l.items.get? index = some removed) (hnext : l.items.get? (index + 1) = some next)
    (hc : c ∈ (l.remove index).nodes.dropLast) : c ∈ l.nodes.dropLast := by
  obtain ⟨front, separator, back, hpairs, hfront⟩ := Listing.exists_item hget
  obtain ⟨pair, back, rfl⟩ : ∃ pair rest, back = pair :: rest := by
    refine List.exists_cons_of_ne_nil ?_
    rintro rfl
    simp [Punctuated.get?, hpairs, ← hfront] at hnext
  rw [Listing.nodes, Punctuated.values, Listing.pairs_remove hpairs hfront] at hc
  rw [Listing.nodes, Punctuated.values, hpairs]
  simp only [List.map_append, List.map_cons, List.dropLast_append_cons, List.dropLast_cons_cons,
    List.mem_append, List.mem_cons] at hc ⊢
  tauto

theorem nodes_removeLast {removed : Node} {index : Nat}
    (hget : l.items.get? index = some removed) (hnext : l.items.get? (index + 1) = none) :
    (l.removeLast index).nodes = l.nodes.dropLast := by
  obtain ⟨front, separator, hpairs, hfront⟩ := Listing.exists_last hget hnext
  rw [Listing.nodes, Punctuated.values, Listing.nodes, Punctuated.values, hpairs]
  rcases Listing.pairs_removeLast hpairs hfront with ⟨-, heq⟩ | ⟨others, last, comma, rfl, -, heq⟩
  · rw [heq]
    simp
  · rw [heq]
    simp

theorem closing_removeLast {index : Nat} (l : Listing) :
    (l.removeLast index).closing = l.closing := by
  rw [Listing.removeLast]
  split <;> rfl

/-- A list that gets an item behind its last one, with a comma between two selectors. -/
theorem appended {item : Node} {comma : Token} {k : Nat}
    (h : l' = if l.kind = .selectors then l.setSeparator k (some comma) else l) :
    l'.items.size = l.items.size ∧ l'.closing = l.closing ∧
      (l'.insert l.items.size item none).nodes = l.nodes ++ [item] ∧
        ∀ {kind opening}, l.Formed kind opening →
          (l'.insert l.items.size item none).Formed kind opening := by
  obtain ⟨hnodes, hsize, hclosing, hformed⟩ : l'.nodes = l.nodes ∧
      l'.items.size = l.items.size ∧ l'.closing = l.closing ∧
        ∀ {kind opening}, l.Formed kind opening → l'.Formed kind opening := by
    subst h
    split
    next hk =>
      refine ⟨Listing.nodes_setSeparator _ _ l, Listing.size_setSeparator _ _ l, rfl, ?_⟩
      exact fun hf => hf.setSeparator (fun hne => absurd (hf.kind.symm.trans hk) hne) _
    next => exact ⟨rfl, rfl, rfl, fun hf => hf⟩
  refine ⟨hsize, hclosing, ?_, fun hf => (hformed hf).insert (Nat.le_of_eq hsize.symm) fun _ => rfl⟩
  rw [← hsize, nodes_insert_last, hnodes]

namespace Reworked

theorem proper (h : m.Reworked m') (hm : ∀ x ∈ m.descendants, x.Proper) :
    ∀ x ∈ m'.descendants, x.Proper := by
  induction h with
  | @insert m item l index comma hl hindex htakes hcomma hnone =>
    have hseparator : ∀ {kind opening}, l.Formed kind opening →
        (l.insert index item comma).Formed kind opening := fun hf =>
      hf.insert (Nat.le_of_lt hindex) fun hk => hnone (hf.kind.symm ▸ hk)
    have hends : (l.insert index item comma).items.endsSeparated = false := by
      have hends := (hm m m.mem_descendants_self).formed.endsSeparated_listing hl
      exact Listing.endsSeparated_insert (Nat.le_of_lt hindex) (fun _ => hends) fun hle => by omega
    refine proper_relist hm hl hseparator rfl hends (fun hk hl => ?_)
      (takes_of_insert hindex htakes)
    obtain ⟨t, rfl, ht⟩ := hcomma hk
    exact hl.insert hindex ht
  | @append m item l l' comma hl htakes hcomma hlast hl' =>
    obtain ⟨hsize, hclosing, hnodes, hformed⟩ := appended hl'
    have hends : (l'.insert l.items.size item none).items.endsSeparated = false :=
      Listing.endsSeparated_insert (Nat.le_of_eq hsize.symm) (fun hlt => by omega) fun _ => rfl
    refine proper_relist hm hl hformed hclosing hends (fun hk hseparated => ?_) fun c hc => ?_
    · rw [if_pos hk] at hl'
      exact hl' ▸ hseparated.append hcomma rfl
    · rw [hnodes] at hc
      rcases List.mem_append.mp hc with hold | hnew
      · exact Or.inr hold
      · exact Or.inl (List.mem_singleton.mp hnew ▸ htakes)
  | @remove m removed next l index hl hget hnext =>
    have hends := (hm m m.mem_descendants_self).formed.endsSeparated_listing hl
    refine proper_relist hm hl (fun hf => hf.remove hget) rfl
      (Listing.endsSeparated_remove hget hnext hends) (fun _ h => h.remove hget hnext)
      fun c hc => ?_
    exact Or.inr ((Listing.perm_remove hget).symm.subset (List.mem_cons_of_mem _ hc))
  | @removeLast m removed l index hl hget hnext =>
    obtain ⟨kind, opening, -, hformed, -, -⟩ := (hm m m.mem_descendants_self).formed.of_listing? hl
    obtain ⟨-, hends, -⟩ := hformed.removeLast hget hnext
    refine proper_relist hm hl (fun hf => (hf.removeLast hget hnext).1) (closing_removeLast l) hends
      (fun hk h => h.removeLast hk hget hnext) fun c hc => Or.inr ?_
    rw [nodes_removeLast hget hnext] at hc
    exact List.dropLast_subset _ hc
  | redeclare hd hremade _ => exact proper_remade hm hd hremade
  | alike heq _ heq' ih =>
    have hn := all_of_skeleton (fun x hx _ hy => (hm x hx).of_skeleton hy) heq
    exact all_of_skeleton (fun x hx _ hy => (ih hn x hx).of_skeleton hy) heq'

theorem kind (h : m.Reworked m') : m'.kind = m.kind := by
  induction h with
  | alike heq _ heq' ih => exact (kind_of_skeleton heq').trans (ih.trans (kind_of_skeleton heq))
  | _ => rfl

theorem terminated (h : m.Reworked m') (hproper : ∀ x ∈ m.descendants, x.Proper)
    (hm : ∀ x ∈ m.descendants, x.Terminated) : ∀ x ∈ m'.descendants, x.Terminated := by
  induction h with
  | @insert m item l index comma hl hindex htakes _ _ =>
    have hformed := (hproper m m.mem_descendants_self).formed
    refine terminated_relist hm hformed hl (takes_of_insert hindex htakes) fun hk hold c hc => ?_
    rcases dropLast_nodes_insert hindex hc with rfl | hc
    · exact htakes.closed hk
    · exact hold c hc
  | @append m item l l' comma hl htakes _ hlast hl' =>
    obtain ⟨-, -, hnodes, -⟩ := appended hl'
    have hformed := (hproper m m.mem_descendants_self).formed
    refine terminated_relist hm hformed hl (fun c hc => ?_) fun hk hold c hc => ?_
    · rw [hnodes] at hc
      rcases List.mem_append.mp hc with hold | hnew
      · exact Or.inr hold
      · exact Or.inl (List.mem_singleton.mp hnew ▸ htakes)
    · rw [hnodes, List.dropLast_concat] at hc
      -- the item that was the last one is followed now
      rcases List.eq_nil_or_concat l.nodes with hnil | ⟨others, last, hconcat⟩
      · rw [hnil] at hc
        cases hc
      · rw [List.concat_eq_append] at hconcat
        rw [hconcat, List.dropLast_concat] at hold
        rw [hconcat] at hc
        rcases List.mem_append.mp hc with hc | hc
        · exact hold c hc
        · have hlast? : l.items.last? = some last := by
            rw [Punctuated.last?, ← List.getLast?_map]
            exact List.getLast?_eq_some_iff.mpr ⟨others, hconcat⟩
          have hlacks := hlast last hlast?
          rw [ListKind.lacksSemicolon, decide_eq_true hk, Bool.true_and] at hlacks
          rwa [List.mem_singleton.mp hc]
  | @remove m removed next l index hl hget hnext =>
    have hformed := (hproper m m.mem_descendants_self).formed
    refine terminated_relist hm hformed hl (fun c hc => Or.inr ?_) fun _ hold c hc => ?_
    · exact (Listing.perm_remove hget).symm.subset (List.mem_cons_of_mem _ hc)
    · exact hold c (dropLast_nodes_remove hget hnext hc)
  | @removeLast m removed l index hl hget hnext =>
    have hformed := (hproper m m.mem_descendants_self).formed
    refine terminated_relist hm hformed hl (fun c hc => Or.inr ?_) fun _ hold c hc => ?_
    · rw [nodes_removeLast hget hnext] at hc
      exact List.dropLast_subset _ hc
    · rw [nodes_removeLast hget hnext] at hc
      exact hold c (List.dropLast_subset _ hc)
  | @redeclare m d d' hd hremade _ =>
    exact terminated_remade hm (hproper m m.mem_descendants_self).formed hd hremade
  | alike heq hrework heq' ih =>
    have hproper' := Node.all_of_skeleton (fun x hx _ hy => (hproper x hx).of_skeleton hy) heq
    have hn := Terminated.all_of_skeleton hm (fun x hx => (hproper x hx).formed) heq
    exact Terminated.all_of_skeleton (ih hproper' hn)
      (fun x hx => (hrework.proper hproper' x hx).formed) heq'

/-- A declaration that is reworked does not lose its semicolon. -/
theorem needsSemicolon (h : m.Reworked m') (hproper : ∀ x ∈ m.descendants, x.Proper)
    (hneeds : m'.needsSemicolon) : m.needsSemicolon := by
  have hlist : ∀ {m : Node} {l : Listing} {es : List Element}, m.listing? = some l →
      ({ m with elements := es } : Node).needsSemicolon = false := by
    intro m l es hl
    have hkind : m.kind ≠ .declaration := by
      rintro hk
      simp [listing?_eq, hk, NodeKind.listShape?] at hl
    rw [Node.needsSemicolon, Node.declaration?, if_neg hkind]
    rfl
  induction h with
  | insert hl | append hl | remove hl | removeLast hl =>
    rw [hlist hl] at hneeds
    cases hneeds
  | @redeclare m d d' hd hremade hquiet =>
    obtain ⟨hkind, -, -⟩ := (hproper m m.mem_descendants_self).formed.of_declaration? hd
    have hd' : ({ m with elements := d'.elements } : Node).declaration? = some d' := by
      rw [Node.declaration?, if_pos hkind]
      exact hremade.formed.ofElements?
    rw [Node.needsSemicolon, hd', Option.any_some] at hneeds
    rw [Node.needsSemicolon, hd, Option.any_some]
    exact hquiet hneeds
  | @alike m n n' m' heq hrework heq' ih =>
    have hn := all_of_skeleton (fun x hx _ hy => (hproper x hx).of_skeleton hy) heq
    have hself := (hproper m m.mem_descendants_self).formed
    have hself' := (hrework.proper hn n' n'.mem_descendants_self).formed
    rw [needsSemicolon_of_skeleton hself' heq'] at hneeds
    rw [← needsSemicolon_of_skeleton hself heq]
    exact ih hn hneeds

end Reworked

/-- The node called `id` is exchanged for one that fits into its place, for one of its kind if it is
a part of a selector. When all is quiet, what ended before an item behind it still does. -/
structure Exchanges (quiet : Prop) (n : Node) (id : NodeId) (f : Node → Node) : Prop where
  proper : ∀ m ∈ n.descendants, m.id = id → (∀ x ∈ m.descendants, x.Proper) →
    ∀ x ∈ (f m).descendants, x.Proper
  terminated : ∀ m ∈ n.descendants, m.id = id → (∀ x ∈ m.descendants, x.Proper) →
    (∀ x ∈ m.descendants, x.Terminated) → ∀ x ∈ (f m).descendants, x.Terminated
  admits : ∀ p ∈ n.descendants, p.Proper → ∀ slot c, p.Holds slot c → c.id = id →
    slot.admits (f c).kind
  part : ∀ p ∈ n.descendants, ∀ c, p.Holds .selectorPart c → c.id = id → (f c).kind = c.kind
  closed : quiet → ∀ p ∈ n.descendants, p.kind = .declarationList → ∀ c ∈ p.children.dropLast,
    c.id = id → (∀ x ∈ c.descendants, x.Proper) → c.needsSemicolon = false →
      (f c).needsSemicolon = false

/-- What a tree becomes when nodes of it are exchanged one after another. -/
inductive Evolves (quiet : Prop) (r : Node) : Node → Prop
  | refl : Evolves quiet r r
  | alike {n n' : Node} : Evolves quiet r n → n'.skeleton = n.skeleton → Evolves quiet r n'
  | exchange {n : Node} {id : NodeId} {f : Node → Node} : Evolves quiet r n →
      n.Exchanges quiet id f → Evolves quiet r (n.update id f)

variable {quiet : Prop} {r n : Node}

/-- Reworking a node never exposes it. -/
theorem exchanges_reworked {id : NodeId} {f : Node → Node}
    (h : ∀ m ∈ n.descendants, m.id = id → m.Reworked (f m)) : n.Exchanges quiet id f := by
  have hchild : ∀ {p c : Node}, p ∈ n.descendants → c ∈ p.children → c ∈ n.descendants :=
    fun hp hc => mem_descendants_trans hp (mem_descendants_child hc)
  refine ⟨fun m hm hid => (h m hm hid).proper, fun m hm hid => (h m hm hid).terminated, ?_, ?_, ?_⟩
  · intro p hp hproper slot c hslot hid
    rw [(h c (hchild hp hslot.mem) hid).kind]
    exact hproper.slots.admits hslot
  · exact fun p hp c hslot hid => (h c (hchild hp hslot.mem) hid).kind
  · intro _ p hp _ c hc hid hproper hclosed
    have hneeds := (h c (hchild hp (List.dropLast_subset _ hc)) hid).needsSemicolon hproper
    rw [hclosed] at hneeds
    simpa using hneeds

namespace Evolves

/-- A tree stays proper. -/
theorem proper (h : r.Evolves quiet n) (hr : ∀ x ∈ r.descendants, x.Proper) :
    ∀ x ∈ n.descendants, x.Proper := by
  induction h with
  | refl => exact hr
  | alike _ heq ih => exact all_of_skeleton (fun x hx _ hy => (ih x hx).of_skeleton hy) heq
  | @exchange n id f _ hf ih =>
    refine all_update ih (fun m hm hid => ?_) fun p hp => ?_
    · exact hf.proper m hm hid fun x hx => ih x (mem_descendants_trans hm hx)
    · exact (ih p hp).updateAll (fun slot c => hf.admits p hp (ih p hp) slot c) (hf.part p hp)

/-- Declarations stay apart. -/
theorem terminated (h : r.Evolves quiet n) (hquiet : quiet)
    (hproper : ∀ x ∈ r.descendants, x.Proper) (hr : ∀ x ∈ r.descendants, x.Terminated) :
    ∀ x ∈ n.descendants, x.Terminated := by
  induction h with
  | refl => exact hr
  | alike h heq ih =>
    exact Terminated.all_of_skeleton ih (fun x hx => (h.proper hproper x hx).formed) heq
  | @exchange n id f h hf ih =>
    have hbelow : ∀ m ∈ n.descendants, ∀ x ∈ m.descendants, x.Proper := fun m hm x hx =>
      h.proper hproper x (mem_descendants_trans hm hx)
    refine all_update ih (fun m hm hid => ?_) fun p hp => ?_
    · exact hf.terminated m hm hid (hbelow m hm) fun x hx => ih x (mem_descendants_trans hm hx)
    · have hchild : ∀ c ∈ p.children, c ∈ n.descendants := fun c hc =>
        mem_descendants_trans hp (mem_descendants_child hc)
      by_cases hk : p.kind = .declarationList
      · refine (ih p hp).updateAll (fun c hc => (h.proper hproper c (hchild c hc)).formed)
          fun c hc hid => ?_
        have hmem := hchild c (List.dropLast_subset _ hc)
        exact hf.closed hquiet p hp hk c hc hid (hbelow c hmem) (ih p hp hk c hc)
      · exact .of_kind hk

end Evolves

end Node

end CssTree
