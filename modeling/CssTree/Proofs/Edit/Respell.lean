import CssTree.Proofs.Edit.Exchange
import CssTree.Proofs.Replacement
import CssTree.Proofs.Tree.Tailed

namespace CssTree

open CssTree.Frame

/-- A declaration with another value. -/
def Declaration.setValue (value : Node) (d : Declaration) : Declaration := { d with value }

namespace Tree.Sound

variable {tree : Tree} {C : List Frame} {n : Node}

/-- A node gets another span, and what stands around it is moved. -/
theorem root_resize_plug (h : tree.Sound []) (hroot : tree.root = plug C n) (s : Span) :
    (tree.resize n.id s).root = plug ((C.map (pushed n.span.delete n.span.delete)).map
      (pushed (fun r => (s.insert r).join s) s.insert)) { n with span := s } := by
  let C₁ := C.map (pushed n.span.delete n.span.delete)
  let closed := tree.closeGap n.span (some n.id)
  let resized := closed.update n.id ({ · with span := s })
  have hn : n ∈ tree.root.descendants := hroot ▸ mem_plug C n
  have hspan : ∀ m : Node, ({ m with span := s } : Node).skeleton = m.skeleton := by
    rintro ⟨id, kind, old, es⟩
    rfl
  have hclosed : closed.Sound [] := h.alike (.closeGap n.span (some n.id) tree)
  have hresized : resized.Sound [] := hclosed.alike (.update n.id hspan closed)
  have hkept : closed.root = plug C₁ n := (root_closeGap_kept n.span h.nodup hn).trans
    (update_moved_plug hroot h.nodup (fun _ _ => rfl) (fun _ _ _ _ => rfl) fun _ => n)
  have hset : resized.root = plug C₁ { n with span := s } :=
    root_update_plug hkept hclosed.nodup _
  have hmem : ({ n with span := s } : Node) ∈ resized.root.descendants := hset ▸ mem_plug C₁ _
  have hfind : resized.find? n.id = some { n with span := s } := hresized.find?_of_mem hmem
  obtain ⟨habove, hbeside⟩ := hresized.above_plug hset
  let n' : Node := { n with span := s }
  let onNode : NodeId → Span → Span := fun i r =>
    if i ∈ resized.arena.above n.id ++ [] then (s.insert r).join s else s.insert r
  let C₂ := C₁.map (pushed (fun r => (s.insert r).join s) s.insert)
  have hroom : (resized.makeRoom n.id none).root =
      resized.root.moveSpans (fun i => decide (i = n.id)) onNode s.insert := by
    rw [makeRoom, hfind]
    rfl
  have hgrow : ∀ F ∈ C₁, onNode F.id = fun r => (s.insert r).join s := fun F hF => by
    simp only [onNode, List.append_nil, if_pos (habove F hF)]
  have hpush : ∀ F ∈ C₁, ∀ x ∈ F.beside, onNode x.id = s.insert := fun F hF x hx => by
    have hx' := hbeside F hF x hx
    rw [List.mem_append, not_or] at hx'
    simp only [onNode, List.append_nil, if_neg hx'.1]
  have hupdate : (resized.root.moved onNode s.insert).update n.id (fun _ => n') = plug C₂ n' :=
    update_moved_plug hset hresized.nodup hgrow hpush fun _ => n'
  have hfrozen : resized.root.moveSpans (fun i => decide (i = n.id)) onNode s.insert =
      (resized.root.moved onNode s.insert).update n.id fun _ => n' :=
    Node.moveSpans_frozen hresized.nodup hmem fun i => rfl
  rw [resize, h.find?_of_mem hn]
  show (resized.makeRoom n.id none).root = _
  rw [hroom, hfrozen, hupdate]

/-- A node is read anew, and what stands around it is moved. -/
theorem root_resized {placed : Node} (h : tree.Sound (placed.entries none))
    (hroot : tree.root = plug C n) (hformed : ∀ x ∈ placed.descendants, x.Formed) :
    let resized := (tree.putContent n.id placed).resize n.id placed.span
    resized.Sound [] ∧ resized.root = plug ((C.map (pushed n.span.delete n.span.delete)).map
      (pushed (fun r => (placed.span.insert r).join placed.span) placed.span.insert))
        { placed with id := n.id } := by
  have hput : (tree.putContent n.id placed).Sound [] :=
    h.putContent (hroot ▸ mem_plug C n) hformed
  have hcontent : (tree.putContent n.id placed).root =
      plug C { n with kind := placed.kind, elements := placed.elements } :=
    root_update_plug hroot h.nodup _
  exact ⟨hput.alike (.resize n.id placed.span _), hput.root_resize_plug hcontent placed.span⟩

end Tree.Sound

/-- A declaration around its value. -/
theorem Node.Formed.exists_frame {n : Node} {d : Declaration} (hformed : n.Formed)
    (hd : n.declaration? = some d) : ∃ F : Frame, F.id = n.id ∧
      F.front = Element.ofToken? d.opening ++ [.token d.name, .token d.colon] ∧
        n = F.fill d.value ∧ ∀ w, F.fill w = n.mapDeclaration (·.setValue w) := by
  have helements := hformed.elements_declaration hd
  let F : Frame := ⟨n.id, n.kind, n.span,
    Element.ofToken? d.opening ++ [.token d.name, .token d.colon],
    Element.ofNode? d.important ++ Element.ofToken? d.semicolon ++ Element.ofToken? d.closing⟩
  have hfill : ∀ w, F.fill w = n.mapDeclaration (·.setValue w) := by
    intro w
    rw [Node.mapDeclaration_of hd, fill]
    simp [F, Declaration.setValue, Declaration.elements]
  have hsame : n.mapDeclaration (·.setValue d.value) = n := hformed.mapDeclaration_eq_self hd rfl
  exact ⟨F, rfl, rfl, ((hfill d.value).trans hsame).symm, hfill⟩

/-- Whatever stands in front of a value takes room. -/
theorem Frame.ahead_of_value {C : List Frame} {F : Frame} {n : Node} {d : Declaration} {p : Position}
    (h : (plug (C ++ [F]) d.value).Strung p) (hfilled : Lexeme.Filled (Token.lexemesOf n.tokens))
    (hfill : n = F.fill d.value)
    (hfront : F.front = Element.ofToken? d.opening ++ [.token d.name, .token d.colon]) :
    ∀ G ∈ C ++ [F], ∀ r ∈ Element.spansOf G.front, r.start < startIn p (C ++ [F]) := by
  refine ahead h (fun l hl => hfilled l ?_) ?_
  · rw [hfill, fill, Node.tokens_mk, Element.tokensOf_append, Token.lexemesOf_append]
    exact List.mem_append_left _ hl
  · rw [hfront, Element.tailed_append (by simp)]
    rfl

theorem Node.Strung.setId {n : Node} {p : Position} (h : n.Strung p) (id : NodeId) :
    ({ n with id } : Node).Strung p := by
  cases n
  exact h

theorem Node.faded_setId (n : Node) (id : NodeId) :
    ({ n with id } : Node).faded = { n.faded with id } := by
  cases n
  rfl

theorem Node.faded_setValue (value n : Node) : (n.mapDeclaration (·.setValue value)).faded =
    n.faded.mapDeclaration (·.setValue value.faded) :=
  Node.moved_mapDeclaration (F := (·.setValue value)) (G := (·.setValue value.faded)) (fun _ => rfl) n

/-- The value of a declaration is read anew. -/
theorem Tree.Sound.exchanged_respelled {tree : Tree} {n placed : Node} {d : Declaration}
    (h : tree.Sound (placed.entries none)) (hstrung : tree.root.Strung .origin)
    (hn : n ∈ tree.root.descendants) (hd : n.declaration? = some d)
    (hfilled : Lexeme.Filled (Token.lexemesOf n.tokens))
    (hformed : ∀ x ∈ placed.descendants, x.Formed) (hplaced : placed.Strung d.value.span.start) :
    Exchanged n (n.faded.mapDeclaration (·.setValue { placed.faded with id := d.value.id })) tree
      (tree.replacedWith d.value.id placed) := by
  obtain ⟨C, hroot⟩ := Node.exists_plug hn
  obtain ⟨F, hF, hfront, hfill, hset⟩ := (h.formed n hn).exists_frame hd
  let v := d.value
  let v' : Node := { placed with id := v.id }
  let s := placed.span
  have hplug : tree.root = plug (C ++ [F]) v := by
    rw [plug_append, plug_cons, plug_nil, ← hfill]
    exact hroot
  let C' := (C.map (pushed v.span.delete v.span.delete)).map
    (pushed (fun r => (s.insert r).join s) s.insert)
  let F' := (F.pushed v.span.delete v.span.delete).pushed (fun r => (s.insert r).join s) s.insert
  have hcut : plug (((C ++ [F]).map (pushed v.span.delete v.span.delete)).map
      (pushed (fun r => (s.insert r).join s) s.insert)) v' = plug C' (F'.fill v') := by
    simp only [List.map_append, plug_append]
    rfl
  have hstrung' : (plug C' (F'.fill v')).Strung .origin := by
    have hvalue := (strung_plug.mp (hplug ▸ hstrung)).2
    rw [← hcut]
    refine strung_replaced (w := v') (hplug ▸ hstrung) ?_
      (ahead_of_value (hplug ▸ hstrung) hfilled hfill hfront)
    have hstart : d.value.span.start = startIn .origin (C ++ [F]) := congrArg Span.start hvalue.span
    rw [hstart] at hplaced
    exact hplaced.setId v.id
  let resized := (tree.putContent v.id placed).resize v.id s
  obtain ⟨hresized, hresizedRoot⟩ : resized.Sound [] ∧ _ := h.root_resized hplug hformed
  have hroot' : resized.root = plug C' (F'.fill v') := hresizedRoot.trans hcut
  have hmem : F'.fill v' ∈ resized.root.descendants := hroot' ▸ mem_plug _ _
  have hparent : resized.parent? v.id = some (F'.fill v') := by
    have hchild : v' ∈ (F'.fill v').children := by
      rw [Node.children, fill]
      simp [Element.node?]
    have hnoted : resized.arena.parent? v'.id = some (F'.fill v').id :=
      hresized.parent?_child hmem hchild
    show (resized.arena.parent? v'.id).bind resized.find? = _
    rw [hnoted]
    exact hresized.find?_of_mem hmem
  have hreplaced : tree.replacedWith v.id placed = resized.respan n.id := by
    have hfound : tree.replacedWith v.id placed = resized.respan (F'.fill v').id := by
      simp only [Tree.replacedWith]
      split
      next parent h => rw [Option.some.inj (hparent.symm.trans h)]
      next h => cases hparent.symm.trans h
    rw [hfound, ← hF]
    rfl
  have hfaded : (F'.fill v').faded =
      n.faded.mapDeclaration (·.setValue { placed.faded with id := v.id }) := by
    have hframe : (F'.fill v').faded = (F.fill v').faded := by
      have hsame : F'.faded = F.faded := by rw [faded_pushed, faded_pushed]
      have hplug' : ∀ G : Frame, (G.fill v').faded = G.faded.fill v'.faded := fun G => faded_plug [G] v'
      rw [hplug', hplug', hsame]
    have hrenamed : v'.faded = { placed.faded with id := v.id } := placed.faded_setId v.id
    rw [hframe, hset, Node.faded_setValue, hrenamed]
  rw [hreplaced, ← hfaded]
  refine (threads_of_strung (hroot' ▸ hstrung') hroot').exchanged hroot h.nodup hresized.nodup ?_ hF ?_
  · rw [map_faded_pushed, map_faded_pushed]
  · intro hnone
    rw [fill, Node.tokens_mk, Element.tokensOf_append, List.append_eq_nil_iff] at hnone
    have hname := hnone.1
    simp only [F', pushed, Element.tokensOf_mapSpansAll, hfront, Element.tokensOf_append] at hname
    simp at hname

end CssTree
