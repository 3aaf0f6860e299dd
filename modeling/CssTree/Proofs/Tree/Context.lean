import CssTree.Proofs.Repair
import CssTree.Proofs.Text.Push
import CssTree.Proofs.Tree.Strung

namespace CssTree

namespace Element

/-- Elements with every span in them moved in the same way. -/
def mapSpansAll (f : Span → Span) (es : List Element) : List Element :=
  moveSpansOf (fun _ => false) (fun _ => f) f es

/-- The spans of nodes and lexemes. -/
def spansOf (es : List Element) : List Span :=
  (descendantsOf es).map Node.span ++ (Token.lexemesOf (tokensOf es)).map Lexeme.span

variable {f : Span → Span} {es : List Element}

theorem mapSpansAll_eq_self (h : ∀ r ∈ spansOf es, f r = r) : mapSpansAll f es = es := by
  refine moveSpansOf_eq_self (fun x hx => h _ ?_) fun t ht => Token.mapSpans_eq_self fun l hl => h _ ?_
  · exact List.mem_append_left _ (List.mem_map_of_mem hx)
  · exact List.mem_append_right _ (List.mem_map_of_mem (List.mem_flatMap.mpr ⟨t, ht, hl⟩))

theorem moveSpansOf_append (onNode : NodeId → Span → Span) (onToken : Span → Span)
    (es fs : List Element) : moveSpansOf (fun _ => false) onNode onToken (es ++ fs) =
      moveSpansOf (fun _ => false) onNode onToken es ++
        moveSpansOf (fun _ => false) onNode onToken fs := by
  simp only [moveSpansOf_eq_map, List.map_append]

@[simp] theorem tokensOf_mapSpansAll (f : Span → Span) (es : List Element) :
    tokensOf (mapSpansAll f es) = (tokensOf es).map (·.mapSpans f) := tokensOf_moved _ _ es

end Element

/-- The spans of a node and of what stands in it. -/
def Node.spans (n : Node) : List Span := Element.spansOf [.node n]

theorem Node.mapSpans_eq_self {f : Span → Span} {n : Node} (h : ∀ r ∈ n.spans, f r = r) :
    n.mapSpans f = n :=
  Element.node.inj (List.cons.inj (Element.mapSpansAll_eq_self h)).1

@[simp] theorem Token.after_map_mapSpans (f : Span → Span) (p : Position) (ts : List Token) :
    after p (ts.map (·.mapSpans f)) = after p ts := by
  rw [after, lexemesOf_mapSpans, Lexeme.after_map_moved]
  rfl

/-- A position with room behind it has room behind what is written from it on. -/
theorem Lexeme.hasRoom_after {p : Position} {ls : List Lexeme} {k : Nat}
    (h : p.HasRoom ((render ls).length + k)) : (after p ls).HasRoom k := by
  induction ls generalizing p with
  | nil => exact h.mono (Nat.le_add_left _ _)
  | cons l ls ih =>
    rw [render_cons, List.length_append, Nat.add_assoc] at h
    exact ih (h.advance (Nat.le_refl _))

theorem Token.hasRoom_after {p : Position} {ts : List Token} {k : Nat}
    (h : p.HasRoom ((renderAll ts).length + k)) : (Token.after p ts).HasRoom k := by
  rw [← render_lexemesOf] at h
  exact Lexeme.hasRoom_after h

mutual

theorem Node.moved_congr {onNode : NodeId → Span → Span} {f : Span → Span} : ∀ {n : Node},
    (∀ x ∈ n.descendants, onNode x.id = f) → n.moved onNode f = n.mapSpans f
  | ⟨id, kind, span, es⟩, h => by
    rw [Node.descendants_mk, List.forall_mem_cons] at h
    rw [Node.moved_mk, show onNode id = f from h.1, Element.moveSpansOf_congr h.2]
    rfl

theorem Element.moveSpansOf_congr {onNode : NodeId → Span → Span} {f : Span → Span} :
    ∀ {es : List Element}, (∀ x ∈ Element.descendantsOf es, onNode x.id = f) →
      Element.moveSpansOf (fun _ => false) onNode f es = Element.mapSpansAll f es
  | [], _ => rfl
  | .token t :: es, h => by
    rw [Element.descendantsOf_token] at h
    rw [Element.moveSpansOf, Element.moveSpansOf_congr h]
    rfl
  | .node n :: es, h => by
    rw [Element.descendantsOf_node, List.forall_mem_append] at h
    have hn : n.moveSpans (fun _ => false) onNode f = n.mapSpans f := Node.moved_congr h.1
    rw [Element.moveSpansOf, hn, Element.moveSpansOf_congr h.2]
    rfl

end

mutual

/-- All that is written in a node lies within it. -/
theorem Node.Strung.within : ∀ {p : Position} {n : Node}, n.Strung p → ∀ x ∈ n.descendants,
    p ≤ x.span.start ∧ x.span.IsValid ∧ x.span.stop ≤ Token.after p n.tokens
  | p, ⟨id, kind, span, es⟩, h, x, hx => by
    rcases List.mem_cons.mp hx with rfl | hx
    · rw [h.span]
      exact ⟨Position.le_refl p, Token.le_after p _, Position.le_refl _⟩
    · exact Element.StrungAll.within h.2 x hx

theorem Element.StrungAll.within : ∀ {p : Position} {es : List Element}, Element.StrungAll p es →
    ∀ x ∈ Element.descendantsOf es,
      p ≤ x.span.start ∧ x.span.IsValid ∧ x.span.stop ≤ Token.after p (Element.tokensOf es)
  | p, .token t :: es, h, x, hx => by
    obtain ⟨hstart, hvalid, hstop⟩ := Element.StrungAll.within h.2 x hx
    rw [Element.tokensOf_token, Token.after_cons]
    exact ⟨Position.le_trans (Token.le_after p [t]) hstart, hvalid, hstop⟩
  | p, .node n :: es, h, x, hx => by
    rw [Element.descendantsOf_node] at hx
    rw [Element.tokensOf_node, Token.after_append]
    rcases List.mem_append.mp hx with hx | hx
    · obtain ⟨hstart, hvalid, hstop⟩ := Node.Strung.within h.1 x hx
      exact ⟨hstart, hvalid, Position.le_trans hstop (Token.le_after _ _)⟩
    · obtain ⟨hstart, hvalid, hstop⟩ := Element.StrungAll.within h.2 x hx
      exact ⟨Position.le_trans (Token.le_after p _) hstart, hvalid, hstop⟩

end

theorem Lexeme.Strung.isValid {p : Position} {ls : List Lexeme} (h : Strung p ls) :
    ∀ l ∈ ls, l.span.IsValid := by
  induction ls generalizing p with
  | nil => simp
  | cons l ls ih =>
    refine List.forall_mem_cons.mpr ⟨?_, ih h.2⟩
    rw [h.1]
    exact Span.isValid_ofText p l.text

theorem Element.StrungAll.spans {p : Position} {es : List Element} (h : StrungAll p es) :
    ∀ r ∈ spansOf es, r.IsValid ∧ r.stop ≤ Token.after p (Element.tokensOf es) := by
  intro r hr
  rcases List.mem_append.mp hr with hr | hr
  · obtain ⟨x, hx, rfl⟩ := List.mem_map.mp hr
    exact (h.within x hx).2
  · obtain ⟨l, hl, rfl⟩ := List.mem_map.mp hr
    exact ⟨h.tokensOf.isValid l hl, (Lexeme.le_of_mem_strung h.tokensOf l hl).2⟩

section Behind

variable {around f : Span → Span} {a q q' u : Position}

theorem Lexeme.Strung.pushed (hf : Span.Pushes around f a q q') {ls : List Lexeme}
    (h : Strung (q.plus u) ls) : Strung (q'.plus u) (ls.map (·.moved f)) := by
  induction ls generalizing u with
  | nil => trivial
  | cons l ls ih =>
    obtain ⟨hspan, hrest⟩ := h
    have hnext : ∀ p : Position, (p.plus u).advance l.text =
        p.plus (u.plus (Position.origin.advance l.text)) := by
      intro p
      rw [Position.advance_eq_plus, Position.plus_plus]
    rw [hnext] at hrest
    refine ⟨?_, ?_⟩
    · show f l.span = .ofText (q'.plus u) l.text
      rw [hspan, Span.ofText, Span.ofText, hnext, hnext]
      exact hf.behind _ _ (Position.le_plus _ _)
    · show Strung ((q'.plus u).advance l.text) _
      rw [hnext]
      exact ih hrest

theorem Token.Strung.pushed (hf : Span.Pushes around f a q q') {ts : List Token}
    (h : Strung (q.plus u) ts) : Strung (q'.plus u) (ts.map (·.mapSpans f)) := by
  rw [Strung, lexemesOf_mapSpans]
  exact Lexeme.Strung.pushed hf h

mutual

theorem Node.Strung.pushed (hf : Span.Pushes around f a q q') :
    ∀ {u : Position} {n : Node}, n.Strung (q.plus u) → (n.mapSpans f).Strung (q'.plus u)
  | u, ⟨id, kind, span, es⟩, h => by
    have hes := Element.StrungAll.pushed hf h.2
    have hspan : f span = ⟨q'.plus u, Token.after (q'.plus u) (Element.tokensOf es)⟩ := by
      rw [h.1, Token.after_plus, Token.after_plus]
      exact hf.behind _ _ (Token.le_after u _)
    refine ⟨?_, hes⟩
    rw [Element.tokensOf_moved, Token.after_map_mapSpans]
    exact hspan

theorem Element.StrungAll.pushed (hf : Span.Pushes around f a q q') :
    ∀ {u : Position} {es : List Element}, Element.StrungAll (q.plus u) es →
      Element.StrungAll (q'.plus u) (Element.mapSpansAll f es)
  | _, [], _ => trivial
  | u, .token t :: es, h => by
    have ht : Token.Strung (q'.plus u) [t.mapSpans f] := Token.Strung.pushed hf h.1
    have hafter : Token.after (q'.plus u) [t.mapSpans f] = q'.plus (Token.after u [t]) := by
      rw [← Token.after_plus]
      exact Token.after_map_mapSpans f _ [t]
    obtain ⟨-, hes⟩ := h
    rw [Token.after_plus] at hes
    refine ⟨ht, ?_⟩
    rw [hafter]
    exact Element.StrungAll.pushed hf hes
  | u, .node n :: es, h => by
    have hn : (n.mapSpans f).Strung (q'.plus u) := Node.Strung.pushed hf h.1
    have hafter : Token.after (q'.plus u) (n.mapSpans f).tokens = q'.plus (Token.after u n.tokens) := by
      rw [← Token.after_plus]
      exact (congrArg _ (Node.tokens_moved _ _ n)).trans (Token.after_map_mapSpans f _ n.tokens)
    obtain ⟨-, hes⟩ := h
    rw [Token.after_plus] at hes
    refine ⟨hn, ?_⟩
    show Element.StrungAll (Token.after _ (n.mapSpans f).tokens) _
    rw [hafter]
    exact Element.StrungAll.pushed hf hes

end

end Behind

/-- A node but for one of its child nodes. -/
structure Frame where
  id : NodeId
  kind : NodeKind
  span : Span
  front : List Element
  back : List Element

namespace Frame

def fill (F : Frame) (n : Node) : Node := ⟨F.id, F.kind, F.span, F.front ++ .node n :: F.back⟩

/-- A node in what stands around it, from outside in. -/
def plug (C : List Frame) (n : Node) : Node := C.foldr fill n

/-- The nodes in front of and behind what a frame is filled with. -/
def beside (F : Frame) : List Node :=
  Element.descendantsOf F.front ++ Element.descendantsOf F.back

/-- A frame that grows, with what stands beside it pushed along. -/
def pushed (around other : Span → Span) (F : Frame) : Frame :=
  { F with
    span := around F.span
    front := Element.mapSpansAll other F.front
    back := Element.mapSpansAll other F.back }

/-- Where a node starts that stands in a context that starts at `p`. -/
def startIn (p : Position) (C : List Frame) : Position :=
  C.foldl (fun q F => Token.after q (Element.tokensOf F.front)) p

/-- Where a context ends around a node that ends at `p`. -/
def stopOf (C : List Frame) (p : Position) : Position :=
  C.foldr (fun F q => Token.after q (Element.tokensOf F.back)) p

/-- Frames that are written from `p` on, around a node that ends at `q`. -/
def Strung (p q : Position) : List Frame → Prop
  | [] => True
  | F :: C => F.span = ⟨p, stopOf (F :: C) q⟩ ∧ Element.StrungAll p F.front ∧
      Strung (Token.after p (Element.tokensOf F.front)) q C ∧ Element.StrungAll (stopOf C q) F.back

variable {F : Frame} {C D : List Frame} {n x : Node} {p q q' : Position}

@[simp] theorem plug_nil (n : Node) : plug [] n = n := rfl

@[simp] theorem plug_cons (F : Frame) (C : List Frame) (n : Node) :
    plug (F :: C) n = F.fill (plug C n) := rfl

theorem plug_append (C D : List Frame) (n : Node) : plug (C ++ D) n = plug C (plug D n) :=
  List.foldr_append

@[simp] theorem startIn_nil (p : Position) : startIn p [] = p := rfl

@[simp] theorem startIn_cons (p : Position) (F : Frame) (C : List Frame) :
    startIn p (F :: C) = startIn (Token.after p (Element.tokensOf F.front)) C := rfl

@[simp] theorem stopOf_nil (p : Position) : stopOf [] p = p := rfl

@[simp] theorem stopOf_cons (F : Frame) (C : List Frame) (p : Position) :
    stopOf (F :: C) p = Token.after (stopOf C p) (Element.tokensOf F.back) := rfl

@[simp] theorem strung_nil (p q : Position) : Strung p q [] := trivial

theorem strung_cons : Strung p q (F :: C) ↔ F.span = ⟨p, stopOf (F :: C) q⟩ ∧
    Element.StrungAll p F.front ∧ Strung (Token.after p (Element.tokensOf F.front)) q C ∧
      Element.StrungAll (stopOf C q) F.back := Iff.rfl

theorem le_startIn (p : Position) (C : List Frame) : p ≤ startIn p C := by
  induction C generalizing p with
  | nil => exact Position.le_refl p
  | cons F C ih => exact Position.le_trans (Token.le_after p _) (ih _)

theorem stopOf_plus (C : List Frame) (p q : Position) :
    stopOf C (p.plus q) = p.plus (stopOf C q) := by
  induction C with
  | nil => rfl
  | cons F C ih => rw [stopOf_cons, ih, Token.after_plus, stopOf_cons]

theorem stopOf_eq_plus (C : List Frame) (p : Position) :
    stopOf C p = p.plus (stopOf C .origin) := by
  rw [← stopOf_plus, Position.plus_origin]

theorem after_plug (p : Position) (C : List Frame) (n : Node) :
    Token.after p (plug C n).tokens = stopOf C (Token.after (startIn p C) n.tokens) := by
  induction C generalizing p with
  | nil => rfl
  | cons F C ih =>
    rw [plug_cons, fill, Node.tokens_mk, Element.tokensOf_append, Element.tokensOf_node,
      Token.after_append, Token.after_append, ih, startIn_cons, stopOf_cons]

/-- The tokens in front of what stands in a context. -/
def before (C : List Frame) : List Token := C.flatMap fun F => Element.tokensOf F.front

/-- The tokens behind what stands in a context. -/
def behind (C : List Frame) : List Token := C.reverse.flatMap fun F => Element.tokensOf F.back

theorem tokens_plug (C : List Frame) (n : Node) :
    (plug C n).tokens = before C ++ (n.tokens ++ behind C) := by
  induction C with
  | nil => exact (List.append_nil _).symm
  | cons F C ih =>
    rw [plug_cons, fill, Node.tokens_mk, Element.tokensOf_append, Element.tokensOf_node, ih]
    simp [before, behind]

/-- A position with room behind it has room behind the start of a node that stands further on. -/
theorem hasRoom_startIn {k : Nat} (h : p.HasRoom ((plug C n).render.length + k)) :
    (startIn p C).HasRoom (n.render.length + k) := by
  induction C generalizing p with
  | nil => exact h
  | cons F C ih =>
    rw [plug_cons, fill, Node.render, Node.tokens_mk, Element.tokensOf_append,
      Element.tokensOf_node, Token.renderAll_append, Token.renderAll_append, List.length_append,
      List.length_append] at h
    refine ih (Token.hasRoom_after (h.mono (m := _ + ((plug C n).render.length + k)) ?_))
    rw [Node.render]
    omega

/-- A node is written in its context if both are, the one around the other. -/
theorem strung_plug : (plug C n).Strung p ↔
    Strung p (Token.after (startIn p C) n.tokens) C ∧ n.Strung (startIn p C) := by
  induction C generalizing p with
  | nil => simp
  | cons F C ih =>
    have hafter := after_plug p (F :: C) n
    rw [plug_cons, fill] at hafter ⊢
    rw [Node.strung_mk, Element.strungAll_append, Element.strungAll_node, ih, strung_cons,
      startIn_cons, after_plug, ← Node.tokens_mk F.id F.kind F.span, hafter, startIn_cons]
    simp only [and_assoc, and_left_comm, and_comm]

/-- A context is written around whatever ends where it is expected to. -/
theorem Strung.front (h : Strung p q C) :
    ∀ F ∈ C, ∀ r ∈ Element.spansOf F.front, r.IsValid ∧ r.stop ≤ startIn p C := by
  induction C generalizing p with
  | nil => simp
  | cons F C ih =>
    obtain ⟨-, hfront, hrest, -⟩ := h
    refine List.forall_mem_cons.mpr ⟨fun r hr => ?_, ih hrest⟩
    obtain ⟨hvalid, hstop⟩ := hfront.spans r hr
    exact ⟨hvalid, Position.le_trans hstop (le_startIn _ C)⟩

theorem startIn_pushed (around other : Span → Span) (p : Position) (C : List Frame) :
    startIn p (C.map (pushed around other)) = startIn p C := by
  induction C generalizing p with
  | nil => rfl
  | cons F C ih => simp [pushed, ih]

theorem stopOf_pushed (around other : Span → Span) (C : List Frame) (p : Position) :
    stopOf (C.map (pushed around other)) p = stopOf C p := by
  induction C with
  | nil => rfl
  | cons F C ih => simp [pushed, ih]

/-- What stands around a change is written around it as before, if what is in front of it stays. -/
theorem Strung.pushed {around other : Span → Span} (h : Strung p q C)
    (hpush : Span.Pushes around other (startIn p C) q q')
    (hfront : ∀ F ∈ C, ∀ r ∈ Element.spansOf F.front, other r = r) :
    Strung p q' (C.map (Frame.pushed around other)) := by
  induction C generalizing p with
  | nil => trivial
  | cons F C ih =>
    obtain ⟨hspan, hahead, hrest, hback⟩ := h
    rw [List.forall_mem_cons] at hfront
    have hstay : Element.mapSpansAll other F.front = F.front :=
      Element.mapSpansAll_eq_self hfront.1
    have hgrow : around F.span = ⟨p, stopOf (F :: C) q'⟩ := by
      rw [hspan, stopOf_eq_plus _ q, stopOf_eq_plus _ q']
      exact hpush.around p _ (le_startIn p (F :: C))
    have hinner := ih hrest hpush hfront.2
    rw [stopOf_eq_plus] at hback
    rw [List.map_cons, strung_cons]
    refine ⟨?_, ?_, ?_, ?_⟩
    · rw [← List.map_cons, stopOf_pushed]
      exact hgrow
    · show Element.StrungAll p (Element.mapSpansAll other F.front)
      rwa [hstay]
    · show Strung (Token.after p (Element.tokensOf (Element.mapSpansAll other F.front))) q' _
      rwa [hstay]
    · rw [stopOf_pushed, stopOf_eq_plus]
      exact hback.pushed hpush

/-- A node that is written where another one was, with what stands around it. -/
theorem strung_replaced {v w : Node}
    (h : (plug C v).Strung p) (hw : w.Strung (startIn p C))
    (hahead : ∀ F ∈ C, ∀ r ∈ Element.spansOf F.front, r.start < startIn p C) :
    (plug ((C.map (pushed v.span.delete v.span.delete)).map
      (pushed (fun r => (w.span.insert r).join w.span) w.span.insert)) w).Strung p := by
  obtain ⟨haround, hv⟩ := strung_plug.mp h
  let b := startIn p C
  let C₁ := C.map (pushed v.span.delete v.span.delete)
  have hstart : startIn p C₁ = b := startIn_pushed _ _ _ _
  have hdelete : ∀ F ∈ C, ∀ r ∈ Element.spansOf F.front, v.span.delete r = r := fun F hF r hr => by
    obtain ⟨hvalid, hstop⟩ := haround.front F hF r hr
    rw [hv.span]
    exact Span.delete_of_le hvalid (Token.le_after _ _) hstop
  have hclosed : Strung p b C₁ := by
    have hpush : Span.Pushes v.span.delete v.span.delete b (Token.after b v.tokens) b := by
      rw [hv.span]
      exact Span.delete_pushes (Token.le_after _ _)
    exact haround.pushed hpush hdelete
  have hopened : Strung p (Token.after b w.tokens)
      (C₁.map (pushed (fun r => (w.span.insert r).join w.span) w.span.insert)) := by
    have hpush : Span.Pushes (fun r => (w.span.insert r).join w.span) w.span.insert (startIn p C₁) b
        (Token.after b w.tokens) := by
      rw [hw.span, hstart]
      exact Span.insert_pushes (Token.le_after _ _)
    refine hclosed.pushed hpush fun G hG r hr => ?_
    obtain ⟨F, hF, rfl⟩ := List.mem_map.mp hG
    have hstay : Element.mapSpansAll v.span.delete F.front = F.front :=
      Element.mapSpansAll_eq_self (hdelete F hF)
    have hr' : r ∈ Element.spansOf F.front := hstay ▸ hr
    rw [hw.span]
    exact Span.insert_of_lt (hahead F hF r hr') (haround.front F hF r hr').2
  refine strung_plug.mpr ?_
  rw [startIn_pushed, hstart]
  exact ⟨hopened, hw⟩

end Frame

mutual

/-- Every node of a tree stands in a context. -/
theorem Node.exists_plug : ∀ {n m : Node}, m ∈ n.descendants → ∃ C, n = Frame.plug C m
  | ⟨id, kind, span, es⟩, m, h => by
    rcases List.mem_cons.mp h with rfl | h
    · exact ⟨[], rfl⟩
    · obtain ⟨front, C, back, rfl⟩ := Element.exists_plug h
      exact ⟨⟨id, kind, span, front, back⟩ :: C, rfl⟩

theorem Element.exists_plug : ∀ {es : List Element} {m : Node}, m ∈ Element.descendantsOf es →
    ∃ front C back, es = front ++ .node (Frame.plug C m) :: back
  | .token t :: es, m, h => by
    rw [Element.descendantsOf_token] at h
    obtain ⟨front, C, back, rfl⟩ := Element.exists_plug h
    exact ⟨.token t :: front, C, back, rfl⟩
  | .node n :: es, m, h => by
    rw [Element.descendantsOf_node] at h
    rcases List.mem_append.mp h with h | h
    · obtain ⟨C, rfl⟩ := Node.exists_plug h
      exact ⟨[], C, es, rfl⟩
    · obtain ⟨front, C, back, rfl⟩ := Element.exists_plug h
      exact ⟨.node n :: front, C, back, rfl⟩

end

namespace Frame

variable {F : Frame} {C : List Frame} {n x : Node}

theorem descendants_fill (F : Frame) (n : Node) : (F.fill n).descendants =
    F.fill n :: (Element.descendantsOf F.front ++ (n.descendants ++ Element.descendantsOf F.back)) := by
  rw [fill, Node.descendants_mk, Element.descendantsOf_append, Element.descendantsOf_node]

theorem mem_plug (C : List Frame) (n : Node) : n ∈ (plug C n).descendants := by
  induction C with
  | nil => exact n.mem_descendants_self
  | cons F C ih =>
    rw [plug_cons, descendants_fill]
    exact List.mem_cons_of_mem _ (List.mem_append_right _ (List.mem_append_left _ ih))

theorem mem_plug_beside (hF : F ∈ C) (hx : x ∈ F.beside) : x ∈ (plug C n).descendants := by
  obtain ⟨C, D, rfl⟩ := List.append_of_mem hF
  rw [plug_append, plug_cons]
  refine Node.mem_descendants_trans (mem_plug C _) ?_
  rw [descendants_fill]
  refine List.mem_cons_of_mem _ ?_
  rcases List.mem_append.mp hx with hx | hx
  · exact List.mem_append_left _ hx
  · exact List.mem_append_right _ (List.mem_append_right _ hx)

/-- The ids of a tree: those around a node, those beside it, and its own. -/
theorem ids_plug (C : List Frame) (n : Node) : ((plug C n).descendants.map Node.id).Perm
    (C.map Frame.id ++ ((C.flatMap beside).map Node.id ++ n.descendants.map Node.id)) := by
  induction C with
  | nil => exact .refl _
  | cons F C ih =>
    rw [plug_cons, descendants_fill, List.perm_iff_count]
    intro i
    have hcount := ih.count_eq i
    simp only [List.map_cons, List.map_append, List.count_cons, List.count_append, List.flatMap_cons,
      beside] at hcount ⊢
    have hid : (F.fill (plug C n)).id = F.id := rfl
    rw [hid]
    omega

/-- Ids that tell nodes apart tell a node from what stands around it. -/
structure Apart (C : List Frame) (n : Node) : Prop where
  around : ∀ F ∈ C, F.id ∉ n.descendants.map Node.id
  beside : ∀ F ∈ C, ∀ x ∈ F.beside, x.id ∉ n.descendants.map Node.id
  between : ∀ F ∈ C, ∀ G ∈ C, ∀ x ∈ F.beside, x.id ≠ G.id

theorem apart_of_nodup (h : ((plug C n).descendants.map Node.id).Nodup) : Apart C n := by
  rw [(ids_plug C n).nodup_iff, List.nodup_append, List.nodup_append] at h
  obtain ⟨-, ⟨-, -, hbeside⟩, haround⟩ := h
  have hmem : ∀ F ∈ C, ∀ x ∈ F.beside, x.id ∈ (C.flatMap Frame.beside).map Node.id :=
    fun F hF x hx => List.mem_map_of_mem (List.mem_flatMap.mpr ⟨F, hF, hx⟩)
  refine ⟨fun F hF hid => ?_, fun F hF x hx hid => ?_, fun F hF G hG x hx heq => ?_⟩
  · exact haround _ (List.mem_map_of_mem hF) _ (List.mem_append_right _ hid) rfl
  · exact hbeside _ (hmem F hF x hx) _ hid rfl
  · exact haround _ (List.mem_map_of_mem hG) _ (List.mem_append_left _ (hmem F hF x hx)) heq.symm

theorem Apart.tail (h : Apart (F :: C) n) : Apart C n :=
  ⟨fun G hG => h.around G (List.mem_cons_of_mem _ hG),
    fun G hG => h.beside G (List.mem_cons_of_mem _ hG),
    fun G hG K hK => h.between G (List.mem_cons_of_mem _ hG) K (List.mem_cons_of_mem _ hK)⟩

/-- A node is changed where it stands. -/
theorem update_plug (h : Apart C n) (f : Node → Node) :
    (plug C n).update n.id f = plug C (f n) := by
  have hself : n.id ∈ n.descendants.map Node.id := List.mem_map_of_mem n.mem_descendants_self
  induction C with
  | nil =>
    cases n
    exact if_pos rfl
  | cons F C ih =>
    have hid : F.id ≠ n.id := fun heq => h.around F List.mem_cons_self (heq ▸ hself)
    have hfront : n.id ∉ (Element.descendantsOf F.front).map Node.id := by
      intro hmem
      obtain ⟨x, hx, heq⟩ := List.mem_map.mp hmem
      exact h.beside F List.mem_cons_self x (List.mem_append_left _ hx) (heq ▸ hself)
    have hback : n.id ∉ (Element.descendantsOf F.back).map Node.id := by
      intro hmem
      obtain ⟨x, hx, heq⟩ := List.mem_map.mp hmem
      exact h.beside F List.mem_cons_self x (List.mem_append_right _ hx) (heq ▸ hself)
    rw [plug_cons, plug_cons, fill, fill, Node.update, if_neg hid, Element.updateAll_append,
      Element.updateAll, Element.updateAll_of_not_mem f hfront, Element.updateAll_of_not_mem f hback,
      ih h.tail]

theorem moved_plug {onNode : NodeId → Span → Span} {around other : Span → Span}
    (haround : ∀ F ∈ C, onNode F.id = around)
    (hbeside : ∀ F ∈ C, ∀ x ∈ F.beside, onNode x.id = other) :
    (plug C n).moved onNode other = plug (C.map (pushed around other)) (n.moved onNode other) := by
  induction C with
  | nil => rfl
  | cons F C ih =>
    rw [List.forall_mem_cons] at haround hbeside
    rw [plug_cons, fill, Node.moved_mk, Element.moveSpansOf_append, Element.moveSpansOf,
      Element.moveSpansOf_congr fun x hx => hbeside.1 x (List.mem_append_left _ hx),
      Element.moveSpansOf_congr fun x hx => hbeside.1 x (List.mem_append_right _ hx), haround.1]
    exact congrArg (fun m => fill (F.pushed around other) m) (ih haround.2 hbeside.2)

theorem moved_plug_all (C : List Frame) (n : Node) (f : Span → Span) :
    (plug C n).moved (fun _ => f) f = plug (C.map (pushed f f)) (n.moved (fun _ => f) f) :=
  moved_plug (fun _ _ => rfl) fun _ _ _ _ => rfl

end Frame

namespace Tree.Sound

variable {tree : Tree} {C : List Frame} {n : Node} {loose : List Entry}

/-- The ids noted above a node are those of the nodes around it. -/
theorem above_plug (h : tree.Sound loose) (hroot : tree.root = Frame.plug C n) :
    (∀ F ∈ C, F.id ∈ tree.arena.above n.id) ∧
      ∀ F ∈ C, ∀ x ∈ F.beside, x.id ∉ tree.arena.above n.id ++ [n.id] := by
  have hapart : Frame.Apart C n := Frame.apart_of_nodup (hroot ▸ h.nodup)
  have hself : n.id ∈ n.descendants.map Node.id := List.mem_map_of_mem n.mem_descendants_self
  have hn : n ∈ tree.root.descendants := hroot ▸ Frame.mem_plug C n
  refine ⟨fun F hF => ?_, fun F hF x hx hid => ?_⟩
  · have hne : F.id ≠ n.id := fun heq => hapart.around F hF (heq ▸ hself)
    obtain ⟨C, D, rfl⟩ := List.append_of_mem hF
    have hm : F.fill (Frame.plug D n) ∈ tree.root.descendants := by
      rw [hroot, Frame.plug_append]
      exact Frame.mem_plug C _
    have hgrowing := (h.mem_growing_iff hn hm).mpr (Frame.mem_plug (F :: D) n)
    rcases List.mem_append.mp hgrowing with habove | hsame
    · exact habove
    · exact absurd (List.mem_singleton.mp hsame) hne
  · have hm : x ∈ tree.root.descendants := hroot ▸ Frame.mem_plug_beside hF hx
    have hbelow := (h.mem_growing_iff hn hm).mp hid
    refine hapart.beside F hF n ?_ hself
    rcases List.mem_append.mp hx with hx | hx
    · exact List.mem_append_left _ ((Element.descendants_contiguous hx).subset hbelow)
    · exact List.mem_append_right _ ((Element.descendants_contiguous hx).subset hbelow)

end Tree.Sound

end CssTree
