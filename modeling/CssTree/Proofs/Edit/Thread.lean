import CssTree.Proofs.Tree.Context

namespace CssTree

namespace Lexeme

variable {p : Position} {s : Span} {l : Lexeme} {xs ys zs : List Lexeme}

theorem map_moved_eq_self {f : Span → Span} (h : ∀ l ∈ xs, f l.span = l.span) :
    xs.map (·.moved f) = xs := by
  have hmoved : ∀ l ∈ xs, l.moved f = id l := fun l hl => by
    rw [moved, h l hl]
    rfl
  rw [List.map_congr_left hmoved, List.map_id]

/-- Lexemes start before the place behind them if the last one of them takes room. -/
theorem Strung.start_lt_after (h : Strung p (xs ++ [l])) (hl : l.text ≠ []) :
    ∀ m ∈ xs ++ [l], m.span.start < after p (xs ++ [l]) := by
  obtain ⟨hxs, hspan, -⟩ := strung_append.mp h
  have hlt : after p xs < after p (xs ++ [l]) := by
    rw [after_append]
    exact lt_after (List.forall_mem_singleton.mpr hl) (List.cons_ne_nil _ _)
  refine List.forall_mem_append.mpr ⟨fun m hm => ?_, List.forall_mem_singleton.mpr ?_⟩
  · have hstart : m.span.start ≤ m.span.stop := hxs.isValid m hm
    exact Position.lt_of_le_of_lt (Position.le_trans hstart (le_of_mem_strung hxs m hm).2) hlt
  · rwa [hspan]

theorem Strung.start_lt_of_filled (h : Strung p xs) (hfilled : Filled xs) :
    ∀ l ∈ xs, l.span.start < after p xs := fun l hl =>
  Position.lt_of_lt_of_le (h.start_lt hfilled l hl) (le_of_mem_strung h l hl).2

/-- Lexemes that are put in between others, of which those in front start before that place. -/
theorem Strung.inserted (h : Strung p (xs ++ ys)) (hahead : ∀ l ∈ xs, l.span.start < s.start)
    (hstart : s.start = after p xs) (hzs : Strung s.start zs) (hstop : s.stop = after s.start zs) :
    let ls := xs.map (·.moved s.insert) ++ (zs ++ ys.map (·.moved s.insert))
    Strung p ls ∧ ∃ w, after p (xs ++ ys) = s.start.plus w ∧ after p ls = s.stop.plus w := by
  intro ls
  have hs : s.IsValid := by
    show s.start ≤ s.stop
    rw [hstop]
    exact le_after _ zs
  obtain ⟨hxs, hys⟩ := strung_append.mp h
  have hstay : xs.map (·.moved s.insert) = xs := map_moved_eq_self fun l hl => by
    have hle := (le_of_mem_strung hxs l hl).2
    rw [← hstart] at hle
    exact Span.insert_of_lt (hahead l hl) hle
  have hafter : after p ls = after s.stop ys := by
    simp only [ls, after_append, after_map_moved, ← hstart, ← hstop]
  refine ⟨?_, after .origin ys, ?_, ?_⟩
  · rw [strung_append, strung_append, hstay, ← hstart, ← hstop]
    rw [← hstart, ← Position.plus_origin s.start] at hys
    have hpushed := hys.pushed (Span.insert_pushes hs)
    rw [Position.plus_origin] at hpushed
    exact ⟨hxs, hzs, hpushed⟩
  · rw [after_append, ← hstart, ← after_plus, Position.plus_origin]
  · rw [hafter, ← after_plus, Position.plus_origin]

/-- Lexemes in front of a gap stay where they are when it is closed. -/
theorem Strung.map_delete (h : Strung p xs) (hs : s.IsValid) (hstart : s.start = after p xs) :
    xs.map (·.moved s.delete) = xs := map_moved_eq_self fun l hl => by
  have hle := (le_of_mem_strung h l hl).2
  rw [← hstart] at hle
  exact Span.delete_of_le (h.isValid l hl) hs hle

/-- Lexemes that are taken out from between others. -/
theorem Strung.deleted (h : Strung p (xs ++ (zs ++ ys))) (hstart : s.start = after p xs)
    (hstop : s.stop = after s.start zs) :
    let ls := xs.map (·.moved s.delete) ++ ys.map (·.moved s.delete)
    Strung p ls ∧ ∃ w, after p (xs ++ (zs ++ ys)) = s.stop.plus w ∧ after p ls = s.start.plus w := by
  intro ls
  have hs : s.IsValid := by
    show s.start ≤ s.stop
    rw [hstop]
    exact le_after _ zs
  obtain ⟨hxs, hrest⟩ := strung_append.mp h
  obtain ⟨-, hys⟩ := strung_append.mp hrest
  have hstay : xs.map (·.moved s.delete) = xs := hxs.map_delete hs hstart
  have hafter : after p ls = after s.start ys := by
    simp only [ls, after_append, after_map_moved, ← hstart]
  refine ⟨?_, after .origin ys, ?_, ?_⟩
  · rw [strung_append, hstay, ← hstart]
    rw [← hstart, ← hstop, ← Position.plus_origin s.stop] at hys
    have hpushed := hys.pushed (Span.delete_pushes hs)
    rw [Position.plus_origin] at hpushed
    exact ⟨hxs, hpushed⟩
  · rw [after_append, after_append, ← hstart, ← hstop, ← after_plus, Position.plus_origin]
  · rw [hafter, ← after_plus, Position.plus_origin]

end Lexeme

namespace Tree

open CssTree.Frame

/-- A tree made of a node and of what is written around its tokens. -/
structure Threads (C : List Frame) (n : Node) (tree : Tree) : Prop where
  root : tree.root = plug C n
  around : Strung .origin (Token.after (startIn .origin C) n.tokens) C
  tokens : Token.Strung (startIn .origin C) n.tokens

variable {tree tree' : Tree} {C : List Frame} {n x : Node} {s : Span} {xs ys zs : List Lexeme}
  {loose : List Entry}

theorem threads_of_strung (h : tree.root.Strung .origin) (hroot : tree.root = plug C n) :
    tree.Threads C n := by
  obtain ⟨haround, hn⟩ := strung_plug.mp (hroot ▸ h)
  exact ⟨hroot, haround, hn.tokens⟩

namespace Threads

/-- The spans of the node are computed at last. -/
theorem respan (h : tree.Threads C n) (hapart : Frame.Apart C n)
    (hempty : n.tokens = [] → n.span.start = startIn .origin C) :
    (tree.respan n.id).root = plug C n.respan ∧ (tree.respan n.id).root.Strung .origin := by
  have hroot : (tree.respan n.id).root = plug C n.respan := by
    show tree.root.update n.id Node.respan = _
    rw [h.root]
    exact update_plug hapart Node.respan
  refine ⟨hroot, ?_⟩
  rw [hroot]
  exact strung_plug.mpr ⟨by rw [Node.tokens_respan]; exact h.around, Node.strung_respan h.tokens hempty⟩

/-- What stands in front of a node starts before all places further on. -/
theorem clear {p : Position} (h : tree.Threads C n) (hlt : startIn .origin C < p) :
    ∀ F ∈ C, ∀ r ∈ Element.spansOf F.front, r.start < p := by
  intro F hF r hr
  obtain ⟨hvalid, hstop⟩ := h.around.front F hF r hr
  exact Position.lt_of_le_of_lt hvalid (Position.lt_of_le_of_lt hstop hlt)

/-- What stands in front of a node starts before all places that lexemes of the node start before. -/
theorem clear_of_ahead {p : Position} (h : tree.Threads C n)
    (hcut : Token.lexemesOf n.tokens = xs ++ ys) (hne : xs ≠ [])
    (hahead : ∀ l ∈ xs, l.span.start < p) : ∀ F ∈ C, ∀ r ∈ Element.spansOf F.front, r.start < p := by
  obtain ⟨l, hl⟩ := List.exists_mem_of_ne_nil xs hne
  have hstart := (Lexeme.le_of_mem_strung h.tokens l (hcut ▸ List.mem_append_left ys hl)).1
  exact h.clear (Position.lt_of_le_of_lt hstart (hahead l hl))

/-- Lexemes are put in between those of the node. What is written in front of that place starts
before it. -/
theorem inserted (h : tree.Threads C n)
    (hroot : tree'.root = plug (C.map (pushed (fun r => (s.insert r).join s) s.insert)) x)
    (hcut : Token.lexemesOf n.tokens = xs ++ ys) (hahead : ∀ l ∈ xs, l.span.start < s.start)
    (hstart : s.start = Lexeme.after (startIn .origin C) xs) (hzs : Lexeme.Strung s.start zs)
    (hstop : s.stop = Lexeme.after s.start zs)
    (hclear : ∀ F ∈ C, ∀ r ∈ Element.spansOf F.front, r.start < s.start)
    (hx : Token.lexemesOf x.tokens =
      xs.map (·.moved s.insert) ++ (zs ++ ys.map (·.moved s.insert))) :
    tree'.Threads (C.map (pushed (fun r => (s.insert r).join s) s.insert)) x := by
  have hs : s.IsValid := by
    show s.start ≤ s.stop
    rw [hstop]
    exact Lexeme.le_after _ zs
  have htokens : Lexeme.Strung (startIn .origin C) (xs ++ ys) := hcut ▸ h.tokens
  obtain ⟨hstrung, w, hbefore, hafter⟩ := htokens.inserted hahead hstart hzs hstop
  have hle : startIn .origin C ≤ s.start := by
    rw [hstart]
    exact Lexeme.le_after _ xs
  refine ⟨hroot, ?_, ?_⟩
  · rw [startIn_pushed, Token.after, hx, hafter]
    have haround := h.around
    rw [Token.after, hcut, hbefore] at haround
    refine haround.pushed ((Span.insert_pushes hs).widen hle w) fun F hF r hr => ?_
    exact Span.insert_of_lt (hclear F hF r hr)
      (Position.le_trans (h.around.front F hF r hr).2 hle)
  · rw [startIn_pushed, Token.Strung, hx]
    exact hstrung

/-- Lexemes are taken out from between those of the node. -/
theorem deleted (h : tree.Threads C n)
    (hroot : tree'.root = plug (C.map (pushed s.delete s.delete)) x)
    (hcut : Token.lexemesOf n.tokens = xs ++ (zs ++ ys))
    (hstart : s.start = Lexeme.after (startIn .origin C) xs)
    (hstop : s.stop = Lexeme.after s.start zs)
    (hx : Token.lexemesOf x.tokens = xs.map (·.moved s.delete) ++ ys.map (·.moved s.delete)) :
    tree'.Threads (C.map (pushed s.delete s.delete)) x := by
  have hs : s.IsValid := by
    show s.start ≤ s.stop
    rw [hstop]
    exact Lexeme.le_after _ zs
  have htokens : Lexeme.Strung (startIn .origin C) (xs ++ (zs ++ ys)) := hcut ▸ h.tokens
  obtain ⟨hstrung, w, hbefore, hafter⟩ := htokens.deleted hstart hstop
  have hle : startIn .origin C ≤ s.start := by
    rw [hstart]
    exact Lexeme.le_after _ xs
  refine ⟨hroot, ?_, ?_⟩
  · rw [startIn_pushed, Token.after, hx, hafter]
    have haround := h.around
    rw [Token.after, hcut, hbefore] at haround
    refine haround.pushed ((Span.delete_pushes hs).widen hle w) fun F hF r hr => ?_
    obtain ⟨hvalid, hstop⟩ := h.around.front F hF r hr
    exact Span.delete_of_le hvalid hs (Position.le_trans hstop hle)
  · rw [startIn_pushed, Token.Strung, hx]
    exact hstrung

end Threads

theorem root_update_plug (hroot : tree.root = plug C n)
    (hnodup : (tree.root.descendants.map Node.id).Nodup) (f : Node → Node) :
    (tree.update n.id f).root = plug C (f n) := by
  show tree.root.update n.id f = _
  rw [hroot]
  exact update_plug (apart_of_nodup (hroot ▸ hnodup)) f

/-- A node is changed in a tree whose spans were moved. -/
theorem update_moved_plug {onNode : NodeId → Span → Span} {around other : Span → Span}
    (hroot : tree.root = plug C n) (hnodup : (tree.root.descendants.map Node.id).Nodup)
    (haround : ∀ F ∈ C, onNode F.id = around)
    (hbeside : ∀ F ∈ C, ∀ x ∈ F.beside, onNode x.id = other) (f : Node → Node) :
    (tree.root.moved onNode other).update n.id f =
      plug (C.map (pushed around other)) (f (n.moved onNode other)) := by
  have hmoved : tree.root.moved onNode other =
      plug (C.map (pushed around other)) (n.moved onNode other) := by
    rw [hroot]
    exact moved_plug haround hbeside
  have hids : ((tree.root.moved onNode other).descendants.map Node.id).Nodup := by
    rw [Node.ids_moved]
    exact hnodup
  have hupdate := update_plug (apart_of_nodup (hmoved ▸ hids)) f
  rwa [Node.id_moved, ← hmoved] at hupdate

/-- Room is made in a node. -/
theorem Sound.root_makeRoom_plug (h : tree.Sound loose) (hroot : tree.root = plug C n) (s : Span) :
    (tree.makeRoom n.id (some s)).root =
      plug (C.map (pushed (fun r => (s.insert r).join s) s.insert))
        (n.moved (tree.grow n.id s) s.insert) := by
  obtain ⟨habove, hbeside⟩ := h.above_plug hroot
  have hgrow : ∀ F ∈ C, tree.grow n.id s F.id = fun r => (s.insert r).join s := fun F hF => by
    funext r
    exact if_pos (List.mem_append_left _ (habove F hF))
  have hpush : ∀ F ∈ C, ∀ x ∈ F.beside, tree.grow n.id s x.id = s.insert := fun F hF x hx => by
    funext r
    exact if_neg (hbeside F hF x hx)
  rw [root_makeRoom_grow, hroot]
  exact moved_plug hgrow hpush

/-- Room is made in a node for what is put into it. -/
theorem Sound.root_makeRoom_update (h : tree.Sound loose) (hroot : tree.root = plug C n) (s : Span)
    (f : Node → Node) : ((tree.makeRoom n.id (some s)).update n.id f).root =
      plug (C.map (pushed (fun r => (s.insert r).join s) s.insert))
        (f (n.moved (tree.grow n.id s) s.insert)) := by
  have hroom := h.root_makeRoom_plug hroot s
  have hnodup : ((tree.makeRoom n.id (some s)).root.descendants.map Node.id).Nodup :=
    (h.alike (.makeRoom n.id (some s) tree)).nodup
  have hupdate := root_update_plug hroom hnodup f
  rwa [n.id_moved] at hupdate

/-- A gap is closed anywhere. -/
theorem root_closeGap_plug (hroot : tree.root = plug C n) (s : Span) :
    (tree.closeGap s none).root =
      plug (C.map (pushed s.delete s.delete)) (n.moved (fun _ => s.delete) s.delete) := by
  rw [root_closeGap, hroot]
  exact moved_plug_all C n s.delete

/-- A gap is closed, and a node is changed. -/
theorem root_closeGap_update (hroot : tree.root = plug C n)
    (hnodup : (tree.root.descendants.map Node.id).Nodup) (s : Span) (g : Node → Node) :
    ((tree.closeGap s none).update n.id g).root =
      plug (C.map (pushed s.delete s.delete)) (g (n.moved (fun _ => s.delete) s.delete)) := by
  show (tree.closeGap s none).root.update n.id g = _
  rw [root_closeGap]
  exact update_moved_plug hroot hnodup (fun _ _ => rfl) (fun _ _ _ _ => rfl) g

end Tree

end CssTree
