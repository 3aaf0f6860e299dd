import Mathlib.Data.List.Nodup
import CssTree.Proofs.Tree.Laid
import CssTree.Tree.Arena

namespace CssTree

/-- An id in use and the parent noted for it. -/
abbrev Entry := NodeId × Option NodeId

mutual

/-- What an arena holds for a node and all nodes below it; `parent` is noted for the node. -/
def Node.entries (parent : Option NodeId) : Node → List Entry
  | ⟨id, _, _, es⟩ => (id, parent) :: Element.entriesOf (some id) es

def Element.entriesOf (parent : Option NodeId) : List Element → List Entry
  | [] => []
  | .token _ :: es => Element.entriesOf parent es
  | .node n :: es => n.entries parent ++ Element.entriesOf parent es

end

theorem Node.mem_children {n m : Node} : m ∈ n.children ↔ .node m ∈ n.elements := by
  constructor
  · intro h
    obtain ⟨e, he, hm⟩ := List.mem_filterMap.mp h
    cases e with
    | token t => cases hm
    | node c =>
      obtain rfl := Option.some.inj hm
      exact he
  · intro h
    exact List.mem_filterMap.mpr ⟨_, h, rfl⟩

namespace Element

/-- The nodes of a list of elements, those below them left out. -/
def nodes (es : List Element) : List Node := es.filterMap node?

/-- What an arena holds for the nodes below those of a list of elements. -/
def entriesBelow (es : List Element) : List Entry :=
  (nodes es).flatMap fun n => entriesOf (some n.id) n.elements

@[simp] theorem nodes_nil : nodes [] = [] := rfl

@[simp] theorem nodes_token (t : Token) (es : List Element) :
    nodes (.token t :: es) = nodes es := rfl

@[simp] theorem nodes_node (n : Node) (es : List Element) :
    nodes (.node n :: es) = n :: nodes es := rfl

@[simp] theorem entriesOf_nil (p : Option NodeId) : entriesOf p [] = [] := rfl

@[simp] theorem entriesOf_token (p : Option NodeId) (t : Token) (es : List Element) :
    entriesOf p (.token t :: es) = entriesOf p es := rfl

@[simp] theorem entriesOf_node (p : Option NodeId) (n : Node) (es : List Element) :
    entriesOf p (.node n :: es) = n.entries p ++ entriesOf p es := rfl

@[simp] theorem entriesOf_append (p : Option NodeId) (es fs : List Element) :
    entriesOf p (es ++ fs) = entriesOf p es ++ entriesOf p fs := by
  induction es with
  | nil => rfl
  | cons e es ih => cases e <;> simp [ih]

end Element

theorem Node.entries_eq (p : Option NodeId) (n : Node) :
    n.entries p = (n.id, p) :: Element.entriesOf (some n.id) n.elements := by
  cases n
  rfl

mutual

theorem Node.ids_entries : ∀ (p : Option NodeId) (n : Node),
    (n.entries p).map Prod.fst = n.descendants.map Node.id
  | p, ⟨id, kind, span, es⟩ => by
    simp [Node.entries, Element.ids_entriesOf]

theorem Element.ids_entriesOf : ∀ (p : Option NodeId) (es : List Element),
    (Element.entriesOf p es).map Prod.fst = (Element.descendantsOf es).map Node.id
  | _, [] => rfl
  | p, .token t :: es => by simpa using Element.ids_entriesOf p es
  | p, .node n :: es => by simp [Node.ids_entries p n, Element.ids_entriesOf p es]

end

/-- The entries at the top of a list of elements and those below. -/
theorem Element.entriesOf_perm (p : Option NodeId) (es : List Element) :
    (entriesOf p es).Perm ((nodes es).map (fun n => (n.id, p)) ++ entriesBelow es) := by
  induction es with
  | nil => exact .nil
  | cons e es ih =>
    cases e with
    | token t => exact ih
    | node n =>
      rw [entriesOf_node, n.entries_eq]
      simp only [nodes_node, List.map_cons, entriesBelow, List.flatMap_cons, List.cons_append]
      refine .cons _ ?_
      refine (ih.append_left _).trans ?_
      rw [← List.append_assoc, ← List.append_assoc]
      exact (List.perm_append_comm).append_right _

namespace Arena

theorem get?_insert (a : Arena) (p : Option NodeId) (id : NodeId) :
    (a.insert p).2.parents[id]? = if id = a.next then some p else a.parents[id]? := by
  simp only [Arena.insert, Std.ExtTreeMap.getElem?_insert, Nat.compare_eq_eq]
  simp only [eq_comm]

theorem get?_remove (a : Arena) (x id : NodeId) :
    (a.remove x).parents[id]? = if id = x then none else a.parents[id]? := by
  simp only [Arena.remove, Std.ExtTreeMap.getElem?_erase, Nat.compare_eq_eq]
  simp only [eq_comm]

theorem contains_iff (a : Arena) (id : NodeId) :
    a.contains id = true ↔ ∃ p, a.parents[id]? = some p := by
  rw [Arena.contains, Std.ExtTreeMap.contains_eq_isSome_getElem?, Option.isSome_iff_exists]

theorem get?_setParent (a : Arena) (p x id : NodeId) :
    (a.setParent p x).parents[id]? =
      if id = x ∧ a.contains x then some (some p) else a.parents[id]? := by
  unfold setParent
  split
  next h =>
    simp only [Std.ExtTreeMap.getElem?_insert, Nat.compare_eq_eq, h, and_true]
    simp only [eq_comm]
  next h => simp [h]

@[simp] theorem next_remove (a : Arena) (x : NodeId) : (a.remove x).next = a.next := rfl

@[simp] theorem next_setParent (a : Arena) (p x : NodeId) : (a.setParent p x).next = a.next := by
  unfold setParent
  split <;> rfl

theorem get?_removeAll (ids : List NodeId) (a : Arena) (id : NodeId) :
    (ids.foldl (fun a x => a.remove x) a).parents[id]? =
      if id ∈ ids then none else a.parents[id]? := by
  induction ids generalizing a with
  | nil => rfl
  | cons x ids ih =>
    rw [List.foldl_cons, ih, get?_remove]
    by_cases hx : id = x <;> by_cases hids : id ∈ ids <;> simp [hx, hids]

/-- No id is in use that is still to be given out. -/
def Fresh (a : Arena) : Prop := ∀ id, a.next ≤ id → a.parents[id]? = none

theorem fresh_empty : Arena.empty.Fresh := fun _ _ => by simp [Arena.empty]

/-- `a` came from `a₀` by adding the entries `l` under new ids. -/
structure Grown (a₀ : Arena) (l : List Entry) (a : Arena) : Prop where
  next : a₀.next ≤ a.next
  nodup : (l.map Prod.fst).Nodup
  fresh : ∀ e ∈ l, a₀.next ≤ e.1 ∧ e.1 < a.next
  found : ∀ e ∈ l, a.parents[e.1]? = some e.2
  others : ∀ id, id ∉ l.map Prod.fst → a.parents[id]? = a₀.parents[id]?

namespace Grown

variable {a₀ a b : Arena} {l m : List Entry}

theorem refl (a : Arena) : Grown a [] a :=
  ⟨Nat.le_refl _, List.nodup_nil, by simp, by simp, fun _ _ => rfl⟩

/-- When nothing was added, the same nodes are in use. -/
theorem parents_eq (h : Grown a₀ [] a) : a.parents = a₀.parents :=
  Std.ExtTreeMap.ext_getElem? fun id => h.others id (by simp)

theorem perm (h : Grown a₀ l a) (hp : l.Perm m) : Grown a₀ m a :=
  ⟨h.next, (hp.map Prod.fst).nodup_iff.mp h.nodup, fun e he => h.fresh e (hp.mem_iff.mpr he),
    fun e he => h.found e (hp.mem_iff.mpr he),
    fun id hid => h.others id fun hl => hid ((hp.map Prod.fst).mem_iff.mp hl)⟩

theorem trans (h : Grown a₀ l a) (h' : Grown a m b) : Grown a₀ (l ++ m) b := by
  have hdisjoint : ∀ e ∈ l, e.1 ∉ m.map Prod.fst := by
    intro e he hm
    obtain ⟨f, hf, heq⟩ := List.mem_map.mp hm
    have hlt := (h.fresh e he).2
    have hle := (h'.fresh f hf).1
    exact Nat.ne_of_gt (Nat.lt_of_lt_of_le hlt hle) heq
  refine ⟨Nat.le_trans h.next h'.next, ?_, ?_, ?_, ?_⟩
  · rw [List.map_append, List.nodup_append]
    refine ⟨h.nodup, h'.nodup, ?_⟩
    rintro id hid _ hid' rfl
    obtain ⟨e, he, rfl⟩ := List.mem_map.mp hid
    exact hdisjoint e he hid'
  · intro e he
    rcases List.mem_append.mp he with he | he
    · exact ⟨(h.fresh e he).1, Nat.lt_of_lt_of_le (h.fresh e he).2 h'.next⟩
    · exact ⟨Nat.le_trans h.next (h'.fresh e he).1, (h'.fresh e he).2⟩
  · intro e he
    rcases List.mem_append.mp he with he | he
    · rw [h'.others e.1 (hdisjoint e he), h.found e he]
    · exact h'.found e he
  · intro id hid
    simp only [List.map_append, List.mem_append, not_or] at hid
    rw [h'.others id hid.2, h.others id hid.1]

theorem insert (h : Grown a₀ l a) (p : Option NodeId) :
    Grown a₀ ((a.next, p) :: l) (a.insert p).2 := by
  have hne : ∀ e ∈ l, e.1 ≠ a.next := fun e he => Nat.ne_of_lt (h.fresh e he).2
  have hnext : (a.insert p).2.next = a.next + 1 := rfl
  refine ⟨?_, ?_, ?_, ?_, ?_⟩
  · rw [hnext]
    exact Nat.le_succ_of_le h.next
  · rw [List.map_cons, List.nodup_cons]
    refine ⟨fun hmem => ?_, h.nodup⟩
    obtain ⟨e, he, heq⟩ := List.mem_map.mp hmem
    exact hne e he heq
  · intro e he
    rcases List.mem_cons.mp he with rfl | he
    · exact ⟨h.next, Nat.lt_succ_self _⟩
    · exact ⟨(h.fresh e he).1, Nat.lt_succ_of_lt (h.fresh e he).2⟩
  · intro e he
    rw [get?_insert]
    rcases List.mem_cons.mp he with rfl | he
    · simp
    · rw [if_neg (hne e he), h.found e he]
  · intro id hid
    simp only [List.map_cons, List.mem_cons, not_or] at hid
    rw [get?_insert, if_neg hid.1, h.others id hid.2]

theorem setParent {id : NodeId} {q : Option NodeId} (h : Grown a₀ ((id, q) :: l) a) (p : NodeId) :
    Grown a₀ ((id, some p) :: l) (a.setParent p id) := by
  have hnodup := h.nodup
  rw [List.map_cons, List.nodup_cons] at hnodup
  have hcontains : a.contains id = true :=
    (a.contains_iff id).mpr ⟨q, h.found (id, q) List.mem_cons_self⟩
  have hne : ∀ e ∈ l, e.1 ≠ id := fun e he heq =>
    hnodup.1 (List.mem_map.mpr ⟨e, he, heq⟩)
  refine ⟨by simpa using h.next, by simpa using h.nodup, ?_, ?_, ?_⟩
  · intro e he
    rw [next_setParent]
    rcases List.mem_cons.mp he with rfl | he
    · exact h.fresh (id, q) List.mem_cons_self
    · exact h.fresh e (List.mem_cons_of_mem _ he)
  · intro e he
    rw [get?_setParent]
    rcases List.mem_cons.mp he with rfl | he
    · simp [hcontains]
    · rw [if_neg fun hc => hne e he hc.1, h.found e (List.mem_cons_of_mem _ he)]
  · intro x hx
    have hx' : x ≠ id := by
      rintro rfl
      simp at hx
    rw [get?_setParent, if_neg fun hc => hx' hc.1]
    exact h.others x (by simpa using hx)

/-- Nodes get a parent. -/
theorem adopt {cs : List Node} {q : Option NodeId}
    (h : Grown a₀ (cs.map (fun c => (c.id, q)) ++ l) a) (p : NodeId) :
    Grown a₀ (cs.map (fun c => (c.id, some p)) ++ l) (a.adopt p cs) := by
  induction cs generalizing a l with
  | nil => exact h
  | cons c cs ih =>
    have hc := setParent h p
    have hcs := ih (hc.perm List.perm_middle.symm)
    exact hcs.perm List.perm_middle

theorem fresh_of (h₀ : a₀.Fresh) (h : Grown a₀ l a) : a.Fresh := by
  intro id hid
  rw [h.others id ?_, h₀ id (Nat.le_trans h.next hid)]
  intro hmem
  obtain ⟨e, he, rfl⟩ := List.mem_map.mp hmem
  exact Nat.not_lt.mpr hid (h.fresh e he).2

theorem remove {id : NodeId} {p : Option NodeId} (h₀ : a₀.Fresh)
    (h : Grown a₀ ((id, p) :: l) a) : Grown a₀ l (a.remove id) := by
  have hid := h₀ id (h.fresh (id, p) List.mem_cons_self).1
  have hnodup := h.nodup
  rw [List.map_cons, List.nodup_cons] at hnodup
  refine ⟨h.next, hnodup.2, fun e he => h.fresh e (List.mem_cons_of_mem _ he), ?_, ?_⟩
  · intro e he
    have hne : e.1 ≠ id := fun heq => hnodup.1 (List.mem_map.mpr ⟨e, he, heq⟩)
    rw [get?_remove, if_neg hne, h.found e (List.mem_cons_of_mem _ he)]
  · intro x hx
    rw [get?_remove]
    split
    next heq => rw [heq, hid]
    next hne => exact h.others x (by simp [hne]; simpa using hx)

/-- Everything added is removed again. -/
theorem undo (h₀ : a₀.Fresh) (h : Grown a₀ l a) {ids : List NodeId}
    (hids : ∀ id, id ∈ ids ↔ id ∈ l.map Prod.fst) :
    Grown a₀ [] (ids.foldl (fun a id => a.remove id) a) := by
  have hnext : ∀ (ids : List NodeId) (a : Arena),
      (ids.foldl (fun a id => a.remove id) a).next = a.next := by
    intro ids
    induction ids with
    | nil => exact fun _ => rfl
    | cons x ids ih => exact fun a => ih (a.remove x)
  refine ⟨by rw [hnext]; exact h.next, List.nodup_nil, by simp, by simp, fun id _ => ?_⟩
  rw [get?_removeAll]
  split
  next hmem =>
    obtain ⟨e, he, rfl⟩ := List.mem_map.mp ((hids id).mp hmem)
    exact (h₀ _ (h.fresh e he).1).symm
  next hmem => exact h.others id fun hl => hmem ((hids id).mpr hl)

mutual

/-- A node and what is below it is freed. -/
theorem free (h₀ : a₀.Fresh) : ∀ {n : Node} {p : Option NodeId} {l : List Entry} {a : Arena},
    Grown a₀ (n.entries p ++ l) a → Grown a₀ l (n.free a)
  | ⟨id, _, _, es⟩, p, l, a, h => by
    have hcontains : a.contains id = true :=
      (a.contains_iff id).mpr ⟨p, h.found (id, p) (by simp [Node.entries])⟩
    rw [Node.free, if_pos hcontains]
    exact freeAll h₀ (Grown.remove h₀ h)

theorem freeAll (h₀ : a₀.Fresh) : ∀ {es : List Element} {p : Option NodeId} {l : List Entry}
    {a : Arena}, Grown a₀ (Element.entriesOf p es ++ l) a → Grown a₀ l (Element.freeAll es a)
  | [], _, _, _, h => h
  | .token _ :: _, _, _, _, h => by
    rw [Element.freeAll]
    exact freeAll h₀ h
  | .node n :: es, p, l, a, h => by
    rw [Element.entriesOf_node, List.append_assoc] at h
    rw [Element.freeAll]
    exact freeAll h₀ (free h₀ h)

end

/-- Elements become those of a new node. -/
theorem node {es fs : List Element} (h : Grown a₀ (Element.entriesOf none (es ++ fs)) a)
    (kind : NodeKind) (span : Span) :
    Grown a₀ (Element.entriesOf none (es ++ [.node ⟨a.next, kind, span, fs⟩]))
      ((a.insert none).2.adopt a.next (Element.nodes fs)) := by
  have regroup : ∀ {top : List Entry} {q : Option NodeId},
      (Element.entriesOf q fs).Perm (top ++ Element.entriesBelow fs) →
      ((a.next, none) :: (Element.entriesOf none es ++ Element.entriesOf q fs)).Perm
        (top ++ (Element.entriesBelow fs ++ (a.next, none) :: Element.entriesOf none es)) := by
    intro top q hfs
    have hswap : (((a.next, none) :: Element.entriesOf none es) ++ Element.entriesOf q fs).Perm
        (Element.entriesOf q fs ++ (a.next, none) :: Element.entriesOf none es) :=
      List.perm_append_comm
    exact hswap.trans ((hfs.append_right _).trans (by rw [List.append_assoc]))
  have hinsert := h.insert none
  rw [Element.entriesOf_append] at hinsert
  have hadopt := (hinsert.perm (regroup (Element.entriesOf_perm none fs))).adopt a.next
  refine hadopt.perm ((regroup (Element.entriesOf_perm (some a.next) fs)).symm.trans ?_)
  simp only [Element.entriesOf_append, Element.entriesOf_node, Node.entries,
    Element.entriesOf_nil, List.append_nil]
  exact List.perm_middle.symm

end Grown

end Arena

end CssTree
