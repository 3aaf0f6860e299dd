import Mathlib.Data.List.Perm.Basic
import CssTree.Proofs.Tree.Linked
import CssTree.Proofs.Tree.Refill
import CssTree.Proofs.Tree.Relist

namespace CssTree

namespace Node

/-- `m` lists the nodes that `n` lists, and is well-formed with them where `n` is. -/
def Refits (n m : Node) : Prop :=
  (∀ x ∈ n.descendants, x.Formed) →
    (∀ p, m.entries p = n.entries p) ∧ ∀ x ∈ m.descendants, x.Formed

namespace Refits

variable {n m : Node}

theorem of_skeleton (h : m.skeleton = n.skeleton) : n.Refits m := by
  refine fun hn => ⟨fun p => ?_, formed_of_skeleton hn h⟩
  rw [← m.entries_skeleton, h, n.entries_skeleton]

theorem trans {k : Node} (h : n.Refits m) (h' : m.Refits k) : n.Refits k := by
  intro hn
  obtain ⟨hentries, hm⟩ := h hn
  obtain ⟨hentries', hk⟩ := h' hm
  exact ⟨fun p => (hentries' p).trans (hentries p), hk⟩

/-- A declaration keeps its nodes. -/
theorem mapDeclaration {f : Declaration → Declaration} (hf : ∀ d, d.Formed → (f d).Formed)
    (hnodes : ∀ d, (f d).nodes = d.nodes) (n : Node) : n.Refits (n.mapDeclaration f) := by
  cases hd : n.declaration? with
  | none =>
    rw [Node.mapDeclaration, hd]
    exact of_skeleton rfl
  | some d =>
    rw [mapDeclaration_of hd]
    intro hn
    have hself : n ∈ n.descendants := n.mem_descendants_self
    obtain ⟨hkind, hformed, -⟩ := (hn n hself).of_declaration? hd
    have hchildren : ({ n with elements := (f d).elements } : Node).children = n.children := by
      rw [(hn n hself).children_declaration hd, ← hnodes d]
      exact (f d).nodes_elements
    refine ⟨fun p => ?_, ?_⟩
    · rw [entries_children, hchildren, n.entries_children]
    · have hresult : ({ n with elements := (f d).elements } : Node).Formed :=
        formed_of_declaration hkind (hf d hformed) rfl
      refine all_of_children hresult (fun c hc => Or.inr ?_) hn
      rwa [hchildren] at hc

end Refits

end Node

namespace Tree

theorem update_id (id : NodeId) (tree : Tree) : tree.update id (fun m => m) = tree := by
  rw [Tree.update, Tree.mapRoot, Node.update_id]

/-- Trees that differ in spans and texts only. -/
structure Alike (tree tree' : Tree) : Prop where
  root : tree'.root.skeleton = tree.root.skeleton
  arena : tree'.arena = tree.arena

namespace Alike

theorem refl (tree : Tree) : tree.Alike tree := ⟨rfl, rfl⟩

theorem trans {t t' t'' : Tree} (h : t.Alike t') (h' : t'.Alike t'') : t.Alike t'' :=
  ⟨h'.root.trans h.root, h'.arena.trans h.arena⟩

theorem makeRoom (id : NodeId) (inserted : Option Span) (tree : Tree) :
    tree.Alike (tree.makeRoom id inserted) := by
  rw [Tree.makeRoom]
  split
  · exact .refl tree
  · exact ⟨Node.skeleton_moveSpans _ _ _ _, rfl⟩

theorem closeGap (deleted : Span) (kept : Option NodeId) (tree : Tree) :
    tree.Alike (tree.closeGap deleted kept) := by
  rw [Tree.closeGap]
  split
  · exact .refl tree
  · exact ⟨Node.skeleton_moveSpans _ _ _ _, rfl⟩

theorem update (id : NodeId) {f : Node → Node} (h : ∀ m, (f m).skeleton = m.skeleton)
    (tree : Tree) : tree.Alike (tree.update id f) := ⟨Node.skeleton_update_of id h _, rfl⟩

theorem respan (id : NodeId) (tree : Tree) : tree.Alike (tree.respan id) :=
  update id Node.skeleton_respan tree

theorem shift (id : NodeId) (lines columns : Int) (tree : Tree) :
    tree.Alike (tree.shift id lines columns) := update id (Node.skeleton_shift lines columns) tree

theorem resize (id : NodeId) (span : Span) (tree : Tree) : tree.Alike (tree.resize id span) := by
  rw [Tree.resize]
  split
  · exact .refl tree
  · have hspan : ∀ m : Node, ({ m with span := span } : Node).skeleton = m.skeleton := by
      rintro ⟨id, kind, old, es⟩
      rfl
    exact ((closeGap _ _ _).trans (update id hspan _)).trans (makeRoom id none _)

/-- A node of one of the trees is found in the other. -/
theorem node {t t' : Tree} (h : t.Alike t') {m : Node} (hm : m ∈ t.root.descendants) :
    ∃ m' ∈ t'.root.descendants, m'.skeleton = m.skeleton := by
  have hmem : m.skeleton ∈ t'.root.descendants.map Node.skeleton := by
    rw [← Node.descendants_skeleton, h.root, Node.descendants_skeleton]
    exact List.mem_map_of_mem hm
  obtain ⟨m', hm', heq⟩ := List.mem_map.mp hmem
  exact ⟨m', hm', heq⟩

end Alike

/-- The arena holds the nodes of the tree and the entries `loose` besides, and every node is
well-formed. -/
structure Sound (loose : List Entry) (tree : Tree) : Prop where
  grown : Arena.empty.Grown (tree.root.entries none ++ loose) tree.arena
  formed : ∀ x ∈ tree.root.descendants, x.Formed

namespace Sound

variable {tree tree' : Tree} {m n : Node} {loose added removed : List Entry}

theorem linked (h : tree.Sound []) : tree.Linked := by
  have hgrown := h.grown
  rwa [List.append_nil] at hgrown

theorem fresh (h : tree.Sound loose) : tree.arena.Fresh := h.grown.fresh_of Arena.fresh_empty

theorem nodup (h : tree.Sound loose) : (tree.root.descendants.map Node.id).Nodup := by
  have hnodup := h.grown.nodup
  rw [List.map_append, Node.ids_entries] at hnodup
  exact hnodup.of_append_left

theorem parent?_child (h : tree.Sound loose) (hm : m ∈ tree.root.descendants) (hn : n ∈ m.children) :
    tree.arena.parent? n.id = some m.id := by
  rw [Arena.parent?, h.grown.found _ (List.mem_append_left _ (Node.mem_entries_child hm hn)),
    Option.join_some]

theorem parent?_root (h : tree.Sound loose) : tree.arena.parent? tree.root.id = none := by
  have hroot : (tree.root.id, none) ∈ tree.root.entries none ++ loose := by
    rw [Node.entries_eq]
    exact List.mem_cons_self
  rw [Arena.parent?, h.grown.found _ hroot, Option.join_some]

/-- There are at least as many nodes in use as there are in the tree. -/
theorem size_le (h : tree.Sound loose) : tree.root.size ≤ tree.arena.size := by
  have hsubset : tree.root.descendants.map Node.id ⊆ tree.arena.parents.keys := by
    intro id hid
    rw [← tree.root.ids_entries none] at hid
    obtain ⟨e, he, rfl⟩ := List.mem_map.mp hid
    rw [Std.ExtTreeMap.mem_keys, ← Std.ExtTreeMap.contains_iff_mem]
    exact (tree.arena.contains_iff _).mpr ⟨e.2, h.grown.found e (List.mem_append_left _ he)⟩
  have hlength := (List.subperm_of_subset h.nodup hsubset).length_le
  rwa [List.length_map, Std.ExtTreeMap.length_keys] at hlength

/-- A text is read into the arena. -/
theorem grow (h : tree.Sound loose) {arena : Arena} (hgrown : tree.arena.Grown added arena) :
    { tree with arena }.Sound (loose ++ added) := by
  refine ⟨?_, h.formed⟩
  rw [← List.append_assoc]
  exact h.grown.trans hgrown

theorem insert (h : tree.Sound loose) (q : Option NodeId) :
    { tree with arena := (tree.arena.insert q).2 }.Sound ((tree.arena.next, q) :: loose) :=
  ⟨(h.grown.insert q).perm List.perm_middle.symm, h.formed⟩

/-- Moving spans and trivia, and reading tokens of the same kinds, keep a tree sound. -/
theorem alike (h : tree.Sound loose) (halike : tree.Alike tree') : tree'.Sound loose := by
  refine ⟨?_, Node.formed_of_skeleton h.formed halike.root⟩
  rw [← Node.entries_skeleton, halike.root, Node.entries_skeleton, halike.arena]
  exact h.grown

/-- A node of the tree is changed. Entries go from the loose ones into it and from it to them. -/
theorem update {f : Node → Node} (h : tree.Sound (added ++ loose))
    (hm : m ∈ tree.root.descendants)
    (hperm : ∀ p, (m.entries p ++ added).Perm ((f m).entries p ++ removed))
    (hformed : ∀ x ∈ (f m).descendants, x.Formed) :
    (tree.update m.id f).Sound (removed ++ loose) := by
  obtain ⟨l, r, q, hentries, hupdate⟩ := Node.entries_update (p := none) h.nodup hm
  constructor
  · have hgrown := h.grown
    rw [hentries] at hgrown
    show Arena.empty.Grown ((tree.root.update m.id f).entries none ++ (removed ++ loose)) tree.arena
    rw [hupdate f]
    have regroup : ∀ a x : List Entry,
        (l ++ a ++ r ++ (x ++ loose)).Perm ((a ++ x) ++ (l ++ r ++ loose)) := by
      intro a x
      simp only [List.append_assoc]
      refine (List.perm_append_comm_assoc l a _).trans (.append_left a ?_)
      rw [← List.append_assoc l r, ← List.append_assoc l r]
      exact List.perm_append_comm_assoc _ _ _
    exact hgrown.perm ((regroup _ _).trans (((hperm q).append_right _).trans (regroup _ _).symm))
  · refine Node.formed_update h.formed fun m' hm' hid => ?_
    rw [List.inj_on_of_nodup_map h.nodup hm' hm hid]
    exact hformed

theorem refit {f : Node → Node} (h : tree.Sound loose) (id : NodeId)
    (hf : ∀ n : Node, n.Refits (f n)) : (tree.update id f).Sound loose := by
  by_cases hid : id ∈ tree.root.descendants.map Node.id
  · obtain ⟨m, hm, rfl⟩ := List.mem_map.mp hid
    have hbelow : ∀ x ∈ m.descendants, x.Formed := fun x hx =>
      h.formed x (Node.mem_descendants_trans hm hx)
    obtain ⟨hentries, hformed⟩ := hf m hbelow
    have hnone : tree.Sound ([] ++ loose) := h
    exact hnone.update hm (fun p => .of_eq (by rw [hentries p])) hformed
  · rwa [Tree.update, Tree.mapRoot, Node.update_of_not_mem f hid]

/-- A node of the tree gets some children and loses others. -/
theorem exchange {f : Node → Node} (new old : List Node)
    (h : tree.Sound (new.flatMap (·.entries (some m.id)) ++ loose))
    (hm : m ∈ tree.root.descendants) (hid : (f m).id = m.id)
    (hchildren : (old ++ (f m).children).Perm (new ++ m.children)) (hformed : (f m).Formed)
    (hnew : ∀ n ∈ new, ∀ x ∈ n.descendants, x.Formed) :
    (tree.update m.id f).Sound (old.flatMap (·.entries (some m.id)) ++ loose) := by
  have hmembers : ∀ c ∈ (f m).children, (∀ x ∈ c.descendants, x.Formed) ∨ c ∈ m.children :=
    fun c hc => (List.mem_append.mp (hchildren.subset (List.mem_append_right old hc))).imp_left
      (hnew c)
  have hbelow : ∀ x ∈ m.descendants, x.Formed := fun x hx =>
    h.formed x (Node.mem_descendants_trans hm hx)
  exact h.update hm (Node.entries_perm hid hchildren)
    (Node.all_of_children hformed hmembers hbelow)

/-- The items of a list are exchanged. -/
theorem relist {f : Node → Node} {l : Listing} (l' : Listing) (new old : List Node)
    (h : tree.Sound (new.flatMap (·.entries (some m.id)) ++ loose))
    (hm : m ∈ tree.root.descendants) (hl : m.listing? = some l)
    (hf : f m = { m with elements := l'.elements })
    (hformed : ∀ {kind opening}, l.Formed kind opening → l'.Formed kind opening)
    (hends : l'.items.endsSeparated = false) (hnodes : (old ++ l'.nodes).Perm (new ++ l.nodes))
    (hnew : ∀ n ∈ new, ∀ x ∈ n.descendants, x.Formed) :
    (tree.update m.id f).Sound (old.flatMap (·.entries (some m.id)) ++ loose) := by
  obtain ⟨kind, opening, hshape, hlist, -, helements⟩ := (h.formed m hm).of_listing? hl
  have hchildren := (h.formed m hm).children_listing hl
  have hchildren' : (f m).children = l'.nodes := by
    rw [← l'.nodes_elements, hf]
    rfl
  refine h.exchange new old hm (by rw [hf]) ?_ ?_ hnew
  · rwa [hchildren, hchildren']
  · rw [hf]
    exact Node.formed_of_listing hshape (hformed hlist) hends rfl

/-- The parts of a declaration are exchanged. -/
theorem redeclare {f : Node → Node} {d : Declaration} (d' : Declaration) (new old : List Node)
    (h : tree.Sound (new.flatMap (·.entries (some m.id)) ++ loose))
    (hm : m ∈ tree.root.descendants) (hd : m.declaration? = some d)
    (hf : f m = { m with elements := d'.elements }) (hformed : d.Formed → d'.Formed)
    (hnodes : (old ++ d'.nodes).Perm (new ++ d.nodes))
    (hnew : ∀ n ∈ new, ∀ x ∈ n.descendants, x.Formed) :
    (tree.update m.id f).Sound (old.flatMap (·.entries (some m.id)) ++ loose) := by
  obtain ⟨hkind, hdeclaration, helements⟩ := (h.formed m hm).of_declaration? hd
  have hchildren := (h.formed m hm).children_declaration hd
  have hchildren' : (f m).children = d'.nodes := by
    rw [← d'.nodes_elements, hf]
    rfl
  refine h.exchange new old hm (by rw [hf]) ?_ ?_ hnew
  · rwa [hchildren, hchildren']
  · rw [hf]
    exact Node.formed_of_declaration hkind (hformed hdeclaration) rfl

theorem setParent {id : NodeId} {q : Option NodeId} (h : tree.Sound ((id, q) :: loose))
    (parent : NodeId) :
    { tree with arena := tree.arena.setParent parent id }.Sound ((id, some parent) :: loose) := by
  refine ⟨?_, h.formed⟩
  have hgrown := (h.grown.perm List.perm_middle).setParent parent
  exact hgrown.perm List.perm_middle.symm

theorem free {p : Option NodeId} (h : tree.Sound (n.entries p ++ loose)) :
    (tree.free n).Sound loose := by
  refine ⟨?_, h.formed⟩
  have hgrown := h.grown.perm (List.perm_append_comm_assoc _ (n.entries p) _)
  exact hgrown.free Arena.fresh_empty

/-- The id of a fragment is given up. -/
theorem remove {id : NodeId} {q : Option NodeId} (h : tree.Sound ((id, q) :: loose)) :
    { tree with arena := tree.arena.remove id }.Sound loose :=
  ⟨Arena.Grown.remove Arena.fresh_empty (h.grown.perm List.perm_middle), h.formed⟩

/-- Nodes that are in no tree get a parent. -/
theorem adopt {cs : List Node} {q : Option NodeId} (h : tree.Sound (cs.flatMap (·.entries q)))
    (parent : NodeId) :
    { tree with arena := tree.arena.adopt parent cs }.Sound
      (cs.flatMap (fun (c : Node) => c.entries (some parent)) ++ []) := by
  refine ⟨?_, h.formed⟩
  have hgrown := h.grown
  have regroup : ∀ q : Option NodeId,
      (tree.root.entries none ++ cs.flatMap (fun c => c.entries q)).Perm
      (cs.map (fun c => (c.id, q)) ++
        (cs.flatMap (fun c => c.children.flatMap (·.entries (some c.id))) ++
          tree.root.entries none)) := by
    intro q
    rw [← List.append_assoc]
    refine List.perm_append_comm.trans (.append_right _ ?_)
    have hentries : (fun c : Node => c.entries q) = fun c : Node =>
        (c.id, q) :: c.children.flatMap (·.entries (some c.id)) :=
      funext fun c => c.entries_children q
    rw [hentries]
    exact (List.map_append_flatMap_perm cs _ _).symm
  rw [List.append_nil]
  exact ((hgrown.perm (regroup q)).adopt parent).perm (regroup (some parent)).symm

theorem freeAll {cs : List Node} {q : Option NodeId}
    (h : tree.Sound (cs.flatMap (·.entries q) ++ loose)) :
    { tree with arena := cs.foldl (fun a (c : Node) => c.free a) tree.arena }.Sound loose := by
  induction cs generalizing tree with
  | nil => exact h
  | cons c cs ih =>
    rw [List.flatMap_cons, List.append_assoc] at h
    exact ih h.free

theorem find?_of_mem (h : tree.Sound loose) (hm : m ∈ tree.root.descendants) :
    tree.find? m.id = some m := Node.find?_of_mem h.nodup hm

end Sound

theorem declaration_of_find? {tree : Tree} {id : NodeId} {n : Node} {d : Declaration}
    (hfind : tree.find? id = some n) (hd : n.declaration? = some d) :
    tree.declaration id = .ok d := by
  rw [declaration, get, hfind]
  show n.expectDeclaration = .ok d
  rw [Node.expectDeclaration, hd]

/-- The node called `id` is a declaration of the tree. -/
def IsDeclaration (tree : Tree) (id : NodeId) : Prop :=
  ∃ n, tree.find? id = some n ∧ n.kind = .declaration

theorem Sound.isDeclaration {tree : Tree} {loose : List Entry} {n : Node} (h : tree.Sound loose)
    (hn : n ∈ tree.root.descendants) (hd : n.declaration?.isSome = true) :
    tree.IsDeclaration n.id := by
  obtain ⟨d, hd⟩ := Option.isSome_iff_exists.mp hd
  exact ⟨n, h.find?_of_mem hn, ((h.formed n hn).of_declaration? hd).1⟩

namespace IsDeclaration

variable {tree tree' : Tree} {id : NodeId}

theorem alike (h : tree.IsDeclaration id) (halike : tree.Alike tree') :
    tree'.IsDeclaration id := by
  obtain ⟨n, hn, hkind⟩ := h
  have hfind := Node.find?_skeleton id tree'.root
  rw [halike.root, Node.find?_skeleton, show tree.root.find? id = some n from hn] at hfind
  obtain ⟨m, hm, hmn⟩ := Option.map_eq_some_iff.mp hfind.symm
  refine ⟨m, hm, ?_⟩
  rw [← m.skeleton_kind, hmn, Node.skeleton_kind, hkind]

theorem update (h : tree.IsDeclaration id) {f : Node → Node} (hid : ∀ m, (f m).id = m.id)
    (hkind : ∀ m, (f m).kind = m.kind) : (tree.update id f).IsDeclaration id := by
  obtain ⟨n, hn, hdeclaration⟩ := h
  refine ⟨f n, ?_, (hkind n).trans hdeclaration⟩
  rw [Tree.find?, Tree.update, Tree.mapRoot, Node.find?_update id hid]
  exact congrArg (Option.map f) hn

/-- A declaration of a sound tree has the parts of one. -/
theorem declaration (h : tree.IsDeclaration id) (hformed : ∀ x ∈ tree.root.descendants, x.Formed) :
    ∃ n d, tree.find? id = some n ∧ n.declaration? = some d ∧ tree.declaration id = .ok d := by
  obtain ⟨n, hn, hkind⟩ := h
  have hmem : n ∈ tree.root.descendants := List.mem_of_find?_eq_some hn
  obtain ⟨d, -, -, hd⟩ := (hformed n hmem).declaration? hkind
  exact ⟨n, d, hn, hd, declaration_of_find? hn hd⟩

end IsDeclaration

end Tree

end CssTree
