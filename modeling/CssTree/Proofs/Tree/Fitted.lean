import CssTree.Proofs.Tree.Context
import CssTree.Proofs.Tree.Unspanned

namespace CssTree

namespace Chained

variable {α : Type} {span : α → Span} {p q r : Position} {a : α} {as bs : List α}

theorem append (h : Chained span p as q) (h' : Chained span q bs r) :
    Chained span p (as ++ bs) r := by
  induction h with
  | nil p => exact h'
  | cons hstart hle _ ih => exact .cons hstart hle (ih h')

/-- Where a chain stops. -/
theorem stop_eq (h : Chained span p as q) : (as.getLast?.map fun a => (span a).stop).getD p = q := by
  induction h with
  | nil p => rfl
  | @cons p q a as hstart hle hrest ih =>
    rw [← ih]
    cases as <;> simp [List.getLast?_cons]

/-- A chain goes from the first to the last. -/
theorem ends (h : Chained span p as q) {first last : α} (hfirst : as.head? = some first)
    (hlast : as.getLast? = some last) : (⟨p, q⟩ : Span) = ⟨(span first).start, (span last).stop⟩ := by
  have hstop := h.stop_eq
  rw [hlast] at hstop
  cases h with
  | nil p => cases hfirst
  | cons hstart _ _ =>
    obtain rfl := Option.some.inj hfirst
    rw [hstart, ← hstop]
    rfl

theorem within (h : Chained span p as q) :
    ∀ a ∈ as, p ≤ (span a).start ∧ (span a).stop ≤ q := by
  induction h with
  | nil p => simp
  | @cons p q a as hstart hle hrest ih =>
    rw [List.forall_mem_cons, hstart]
    refine ⟨⟨Position.le_refl p, hrest.le⟩, fun b hb => ?_⟩
    exact ⟨Position.le_trans hle (ih b hb).1, (ih b hb).2⟩

theorem ordered (h : Chained span p as q) :
    as.Pairwise fun a b => (span a).stop ≤ (span b).start := by
  induction h with
  | nil p => exact .nil
  | cons hstart hle hrest ih => exact .cons (fun b hb => (hrest.within b hb).1) ih

/-- Each of some things starts where the one before it stops, and none stops before it starts. -/
theorem of_isChain (hvalid : ∀ b ∈ a :: as, (span b).IsValid)
    (hchain : (a :: as).IsChain fun b c => (span c).start = (span b).stop) :
    ∃ q, Chained span (span a).start (a :: as) q := by
  induction as generalizing a with
  | nil => exact ⟨_, .cons rfl (hvalid a List.mem_cons_self) (.nil _)⟩
  | cons b as ih =>
    rw [List.forall_mem_cons] at hvalid
    rw [List.isChain_cons_cons] at hchain
    obtain ⟨q, hrest⟩ := ih hvalid.2 hchain.2
    exact ⟨q, .cons rfl hvalid.1 (hchain.1 ▸ hrest)⟩

end Chained

/-- The elements of a node stand one behind the other, and with them all that stands in it. -/
def Node.Fitted (n : Node) : Prop :=
  ∀ x ∈ n.descendants, Chained Element.span x.span.start x.elements x.span.stop

mutual

theorem Node.fitted_respanFrom {p q : Position} : ∀ {n : Node},
    Chained Token.fullSpan p n.tokens q → (n.respanFrom p).Fitted
  | ⟨id, kind, span, es⟩, h => by
    have hes : Chained Element.span p (Element.respanAll p es) q := Element.chained_respanAll h
    have hspan : ((Element.spanOf? (Element.respanAll p es)).getD (.point p)) = ⟨p, q⟩ := hes.spanOf?
    rw [Node.respanFrom, Node.Fitted, Node.descendants_mk, List.forall_mem_cons, hspan]
    exact ⟨hes, Element.fitted_respanAll h⟩

theorem Element.fitted_respanAll {p q : Position} : ∀ {es : List Element},
    Chained Token.fullSpan p (Element.tokensOf es) q →
      ∀ x ∈ Element.descendantsOf (Element.respanAll p es),
        Chained Element.span x.span.start x.elements x.span.stop
  | [], _ => by simp [Element.respanAll]
  | .token t :: es, h => by
    rw [Element.tokensOf_token] at h
    rw [Element.respanAll, Element.descendantsOf_token]
    cases h with
    | cons _ _ hrest => exact Element.fitted_respanAll hrest
  | .node n :: es, h => by
    rw [Element.tokensOf_node] at h
    obtain ⟨r, hn, hes⟩ := h.of_append
    have hspan : (n.respanFrom p).span = ⟨p, r⟩ := Node.span_respanFrom hn
    rw [Element.respanAll]
    simp only [hspan, Element.descendantsOf_node, List.forall_mem_append]
    exact ⟨Node.fitted_respanFrom hn, Element.fitted_respanAll hes⟩

end

mutual

/-- The tokens of a node that is filled fill it. -/
theorem Node.Fitted.tokens : ∀ {n : Node}, n.Fitted →
    Chained Token.fullSpan n.span.start n.tokens n.span.stop
  | ⟨id, kind, span, es⟩, h => by
    rw [Node.Fitted, Node.descendants_mk, List.forall_mem_cons] at h
    exact Element.chained_tokensOf h.1 h.2

theorem Element.chained_tokensOf {p q : Position} : ∀ {es : List Element},
    Chained Element.span p es q → (∀ x ∈ Element.descendantsOf es,
      Chained Element.span x.span.start x.elements x.span.stop) →
        Chained Token.fullSpan p (Element.tokensOf es) q
  | [], h, _ => by
    cases h
    exact .nil p
  | .token t :: es, h, hbelow => by
    rw [Element.descendantsOf_token] at hbelow
    rw [Element.tokensOf_token]
    cases h with
    | cons hstart hle hrest => exact .cons hstart hle (Element.chained_tokensOf hrest hbelow)
  | .node n :: es, h, hbelow => by
    rw [Element.descendantsOf_node, List.forall_mem_append] at hbelow
    rw [Element.tokensOf_node]
    cases h with
    | cons hstart _ hrest =>
      have hn : Chained Token.fullSpan n.span.start n.tokens n.span.stop := Node.Fitted.tokens hbelow.1
      rw [← hstart]
      exact hn.append (Element.chained_tokensOf hrest hbelow.2)

end

namespace Node.Fitted

variable {n x : Node} {C : List Frame}

theorem of_mem (h : n.Fitted) (hx : x ∈ n.descendants) : x.Fitted :=
  fun y hy => h y (Node.mem_descendants_trans hx hy)

/-- A node starts where the element before it stops, whether that is its sibling or one of a node
around it, and at the start of the whole if there is none. -/
theorem start_eq (h : (Frame.plug C x).Fitted) : x.span.start =
    ((C.flatMap Frame.front).getLast?.map fun e => e.span.stop).getD
      (Frame.plug C x).span.start := by
  induction C with
  | nil => rfl
  | cons F C ih =>
    have hinner : Frame.plug C x ∈ (Frame.plug (F :: C) x).descendants :=
      Node.mem_descendants_child (Node.mem_children.mpr (by simp [Frame.plug_cons, Frame.fill]))
    have hself : Chained Element.span F.span.start (F.front ++ .node (Frame.plug C x) :: F.back)
        F.span.stop := h _ (Frame.plug (F :: C) x).mem_descendants_self
    obtain ⟨r, hfront, hrest⟩ := hself.of_append
    have hstart : (Frame.plug C x).span.start = r := by
      cases hrest with
      | cons hstart => exact hstart
    rw [ih (h.of_mem hinner), hstart, ← hfront.stop_eq, List.flatMap_cons, List.getLast?_append]
    cases (C.flatMap Frame.front).getLast? <;> rfl

end Node.Fitted

namespace Tree

variable {tree : Tree} {n : Node} {first : Token}

/-- Whatever the spans of the nodes in a subtree were: once they are computed, every node covers its
tokens from the first to the last, and one without tokens is a point where the element before it
stops, or where the first token of the subtree starts if there is no such element. Then all elements
lie in their parents, each behind the one before it. The tokens of the subtree stay where they are,
and so does all that is not in it. -/
theorem respan_fits (hids : (tree.root.descendants.map Node.id).Nodup)
    (hn : n ∈ tree.root.descendants) (hfirst : n.tokens.head? = some first)
    (hvalid : ∀ t ∈ n.tokens, t.fullSpan.IsValid)
    (hchain : n.tokens.IsChain fun t u => u.fullSpan.start = t.fullSpan.stop) :
    ∃ C m, tree.root = Frame.plug C n ∧ tree.respan n.id = { tree with root := Frame.plug C m } ∧
      m.unspanned = n.unspanned ∧
      (∀ x ∈ m.descendants, ∀ a ∈ x.tokens.head?, ∀ b ∈ x.tokens.getLast?,
        x.span = ⟨a.fullSpan.start, b.fullSpan.stop⟩) ∧
      (∀ D x, m = Frame.plug D x → x.tokens = [] →
        x.span = .point (((D.flatMap Frame.front).getLast?.map fun e => e.span.stop).getD
          first.fullSpan.start)) ∧
      ∀ x ∈ m.descendants, (∀ e ∈ x.elements, x.span.Contains e.span) ∧
        x.elements.Pairwise fun e f => e.span.stop ≤ f.span.start := by
  obtain ⟨C, hroot⟩ := Node.exists_plug hn
  obtain ⟨q, hchained⟩ : ∃ q, Chained Token.fullSpan first.fullSpan.start n.tokens q := by
    obtain ⟨ts, htokens⟩ := List.head?_eq_some_iff.mp hfirst
    rw [htokens] at hvalid hchain ⊢
    exact Chained.of_isChain hvalid hchain
  have hrespan : n.respan = n.respanFrom first.fullSpan.start := by
    rw [Node.respan, hfirst]
    rfl
  have hspan : n.respan.span = ⟨first.fullSpan.start, q⟩ := by
    rw [hrespan, Node.span_respanFrom hchained]
  have hfitted : n.respan.Fitted := hrespan ▸ Node.fitted_respanFrom hchained
  refine ⟨C, n.respan, hroot, ?_, n.unspanned_respan, fun x hx a ha b hb => ?_,
    fun D x hD hx => ?_, fun x hx => ?_⟩
  · have hupdate : tree.root.update n.id Node.respan = Frame.plug C n.respan := by
      rw [hroot]
      exact Frame.update_plug (Frame.apart_of_nodup (hroot ▸ hids)) Node.respan
    exact congrArg (fun root => { tree with root }) hupdate
  · exact (hfitted.of_mem hx).tokens.ends ha hb
  · have hmem : x ∈ n.respan.descendants := hD ▸ Frame.mem_plug D x
    have hempty := (hfitted.of_mem hmem).tokens.stop_eq
    rw [hx] at hempty
    have hstart := Node.Fitted.start_eq (hD ▸ hfitted)
    rw [← hD, hspan] at hstart
    rw [← hstart]
    exact Span.ext rfl hempty.symm
  · have helements := hfitted x hx
    exact ⟨helements.within, helements.ordered⟩

/-- The second rule has no media queries. All spans of nodes were lost. -/
theorem respan_fits_media :
    let tree := (parse .styleSheet {} "a{} @media {b{}}".toList).mapRoot Node.unspanned
    let n := tree.root
    (tree.root.descendants.map Node.id).Nodup ∧ n ∈ tree.root.descendants ∧
      (∀ t ∈ n.tokens, t.fullSpan.IsValid) ∧
      (n.tokens.IsChain fun t u => u.fullSpan.start = t.fullSpan.stop) ∧
      (∃ first C m, n.tokens.head? = some first ∧ tree.root = Frame.plug C n ∧
        tree.respan n.id = { tree with root := Frame.plug C m } ∧
        ∀ D x, m = Frame.plug D x → x.tokens = [] →
          x.span = .point (((D.flatMap Frame.front).getLast?.map fun e => e.span.stop).getD
            first.fullSpan.start)) ∧
      ((tree.respan n.id).find? 5).map (fun x => (x.kind, x.span)) =
        some (.mediaQueryList, .point ⟨0, 10⟩) := by
  intro tree n
  have hids : (tree.root.descendants.map Node.id).Nodup := by decide +kernel
  have hn : n ∈ tree.root.descendants := n.mem_descendants_self
  have hvalid : ∀ t ∈ n.tokens, t.fullSpan.IsValid := by decide +kernel
  have hchain : n.tokens.IsChain fun t u => u.fullSpan.start = t.fullSpan.stop := by decide +kernel
  obtain ⟨first, hfirst⟩ : ∃ first, n.tokens.head? = some first :=
    Option.isSome_iff_exists.mp (by decide +kernel)
  obtain ⟨C, m, hroot, hrespan, -, -, hempty, -⟩ := respan_fits hids hn hfirst hvalid hchain
  exact ⟨hids, hn, hvalid, hchain, ⟨first, C, m, hfirst, hroot, hrespan, hempty⟩,
    by decide +kernel⟩

end Tree

end CssTree
