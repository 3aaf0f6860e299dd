import CssTree.Proofs.Edit.Mutation

namespace CssTree

namespace Tree

theorem sound_parse (p : Production) (config : Config) (t : Text) :
    (Tree.parse p config t).Sound [] := by
  have hcomplete := (p.complete_parse (if p = .declaration then
    { config with comments := true } else config) Arena.fresh_empty t).1
  refine ⟨?_, hcomplete.formed⟩
  rw [List.append_nil]
  exact hcomplete.grown

/-- A tree in which an edit failed holds what it held before. -/
theorem Sound.undone {tree : Tree} {d : Draft} (h : tree.Sound []) (hd : d.Undone tree) :
    d.tree.Sound [] := by
  refine ⟨?_, by rw [hd.root]; exact h.formed⟩
  rw [hd.root, ← List.append_nil (_ ++ _)]
  exact h.grown.trans hd.arena

end Tree

namespace Session

variable {s : Session}

/-- An edit of a sound tree leaves a sound tree behind, even if it fails. -/
theorem sound_apply (h : s.tree.Sound []) (m : Mutation) : (s.apply m).2.1.tree.Sound [] := by
  have htree : (s.apply m).2.1.tree = (m.steps.run.run ⟨s.tree, []⟩).2.tree := rfl
  rw [htree]
  by_cases hforce : m.InForce s.tree
  · rw [Mutation.steps_inForce hforce]
    exact h
  · have hmakes := Mutation.steps_makes h hforce
    unfold Edit.Makes Edit.Leads at hmakes
    generalize m.steps.run.run ⟨s.tree, []⟩ = r at hmakes ⊢
    obtain ⟨e | ⟨⟩, d⟩ := r
    · exact h.undone hmakes
    · obtain ⟨c, -, hedited⟩ := hmakes
      exact hedited.sound h

/-- An edit of a sound tree makes one of the changes that edits make, or it leaves the root as it
is. -/
theorem root_apply (h : s.tree.Sound []) (m : Mutation) :
    (s.apply m).2.1.tree.root = s.tree.root ∨
      (s.apply m).1.isOk = true ∧ ∃ c, s.tree.Edited m (s.apply m).2.1.tree c := by
  rw [apply]
  by_cases hforce : m.InForce s.tree
  · rw [Mutation.steps_inForce hforce]
    exact Or.inl rfl
  · have hmakes := Mutation.steps_makes h hforce
    unfold Edit.Makes Edit.Leads at hmakes
    generalize m.steps.run.run ⟨s.tree, []⟩ = r at hmakes ⊢
    obtain ⟨e | ⟨⟩, d⟩ := r
    · exact Or.inl hmakes.root
    · obtain ⟨c, -, hedited⟩ := hmakes
      exact Or.inr ⟨rfl, c, hedited⟩

theorem sound_call (h : s.tree.Sound []) (c : Call) : (s.call c).tree.Sound [] := by
  cases c with
  | edit m => exact sound_apply h m
  | shift node lines columns => exact h.alike (.shift _ _ _ _)
  | makeRoom node inserted => exact h.alike (.makeRoom _ _ _)
  | closeGap deleted => exact h.alike (.closeGap _ _ _)
  | resize node span => exact h.alike (.resize _ _ _)
  | observe => exact h
  | release => exact h

theorem sound_run (h : s.tree.Sound []) (calls : List Call) : (s.run calls).tree.Sound [] := by
  induction calls generalizing s with
  | nil => exact h
  | cons c calls ih => exact ih (sound_call h c)

/-- Whatever was read and whatever calls were made on the tree, successful or not, the nodes in
use are those reached from the root, each of them once; the parent noted for a node is the one
node that lists it, none is noted for the root, and there are as many nodes in use as in the
tree. -/
theorem arena_is_tree (p : Production) (config : Config) (t : Text) (calls : List Call) :
    let tree := (Session.run ⟨Tree.parse p config t, false⟩ calls).tree
    (∀ id, tree.contains id = true ↔ id ∈ tree.root.descendants.map Node.id) ∧
      (tree.root.descendants.map Node.id).Nodup ∧
      (∀ id, tree.contains id = true → id ≠ tree.root.id → ∃ m ∈ tree.root.descendants,
        tree.arena.parent? id = some m.id ∧ id ∈ m.children.map Node.id ∧
          ∀ n ∈ tree.root.descendants, id ∈ n.children.map Node.id → n = m) ∧
      tree.arena.parent? tree.root.id = none ∧ tree.size = tree.root.descendants.length := by
  intro tree
  have hsound : tree.Sound [] := sound_run (Tree.sound_parse p config t) calls
  have hlinked := hsound.linked
  refine ⟨hlinked.mem_iff, hlinked.nodup, ?_, hlinked.parent?_root, hlinked.size_eq⟩
  intro id hid hroot
  obtain ⟨x, hx, rfl⟩ := List.mem_map.mp ((hlinked.mem_iff id).mp hid)
  obtain rfl | ⟨m, hm, hchild⟩ := Node.exists_parent hx
  · exact absurd rfl hroot
  · have hparent := hlinked.parent?_child hm hchild
    refine ⟨m, hm, hparent, List.mem_map_of_mem hchild, fun n hn hlists => ?_⟩
    obtain ⟨c, hc, hsame⟩ := List.mem_map.mp hlists
    have hparent' := hlinked.parent?_child hn hc
    rw [hsame, hparent] at hparent'
    exact List.inj_on_of_nodup_map hlinked.nodup hn hm (Option.some.inj hparent').symm

/-- In every session, an edit that fails changes nothing and is not told of: the root with all
that it holds, the nodes in use and their parents stay as they are. An edit that succeeds is told
of once if there is an observer, unless it makes a declaration what it is already; then nothing
happens. -/
theorem apply_atomic (p : Production) (config : Config) (t : Text) (calls : List Call)
    (m : Mutation) :
    let s := Session.run ⟨Tree.parse p config t, false⟩ calls
    match s.apply m with
    | (.error _, s', told) => s'.tree.root = s.tree.root ∧ s'.tree.config = s.tree.config ∧
        s'.tree.arena.parents = s.tree.arena.parents ∧ s'.observed = s.observed ∧ told = []
    | (.ok change, s', told) =>
      (m.InForce s.tree ∧ s' = s ∧ change = none ∧ told = []) ∨
        (¬m.InForce s.tree ∧ ∃ c, change = some c ∧ told = if s.observed then [c] else []) := by
  intro s
  have hsound : s.tree.Sound [] := sound_run (Tree.sound_parse p config t) calls
  rw [apply]
  by_cases hforce : m.InForce s.tree
  · rw [Mutation.steps_inForce hforce]
    exact Or.inl ⟨hforce, rfl, rfl, ite_self _⟩
  · have hmakes := Mutation.steps_makes hsound hforce
    unfold Edit.Makes Edit.Leads at hmakes
    generalize m.steps.run.run ⟨s.tree, []⟩ = r at hmakes ⊢
    obtain ⟨e | ⟨⟩, d⟩ := r
    · obtain ⟨hroot, hconfig, harena, hreported⟩ := hmakes
      refine ⟨hroot, hconfig, harena.parents_eq, rfl, ?_⟩
      rw [hreported]
      exact ite_self _
    · obtain ⟨c, hreported, -⟩ := hmakes
      refine Or.inr ⟨hforce, c, ?_, ?_⟩
      · rw [hreported]
        rfl
      · rw [hreported]

end Session

end CssTree
