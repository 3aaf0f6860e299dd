import CssTree.Proofs.Text.Span
import CssTree.Proofs.Tree.Respan
import CssTree.Proofs.Tree.Moved
import CssTree.Proofs.Tree.Skeleton

namespace CssTree

/-- Each of some things starts where the one before it stops, the first at `p`; the last one stops at
`q`. -/
inductive Chained {α : Type} (span : α → Span) : Position → List α → Position → Prop
  | nil (p : Position) : Chained span p [] p
  | cons {p q : Position} {a : α} {as : List α} : (span a).start = p → p ≤ (span a).stop →
      Chained span (span a).stop as q → Chained span p (a :: as) q

namespace Chained

variable {α : Type} {span : α → Span} {p q r : Position} {as bs : List α} {t : Token}
  {ts : List Token} {es : List Element}

theorem le (h : Chained span p as q) : p ≤ q := by
  induction h with
  | nil p => exact Position.le_refl p
  | cons _ hle _ ih => exact Position.le_trans hle ih

theorem of_append (h : Chained span p (as ++ bs) q) :
    ∃ r, Chained span p as r ∧ Chained span r bs q := by
  induction as generalizing p with
  | nil => exact ⟨p, .nil p, h⟩
  | cons a as ih =>
    cases h with
    | cons hstart hle hrest =>
      obtain ⟨r, has, hbs⟩ := ih hrest
      exact ⟨r, .cons hstart hle has, hbs⟩

/-- What stands one behind the other covers all from the first to the last. -/
theorem foldl_join (h : Chained span p as q) (hr : r ≤ p) :
    as.foldl (fun (s : Span) a => s.join (span a)) ⟨r, p⟩ = ⟨r, q⟩ := by
  induction h with
  | nil p => rfl
  | @cons p q a as hstart hle _ ih =>
    have hjoin : Span.join ⟨r, p⟩ (span a) = ⟨r, (span a).stop⟩ := by
      rw [show span a = ⟨p, (span a).stop⟩ from Span.ext hstart rfl]
      exact Span.join_next hr hle
    rw [List.foldl_cons, hjoin]
    exact ih (Position.le_trans hr hle)

theorem spanOf? (h : Chained Element.span p es q) :
    (Element.spanOf? es).getD (.point p) = ⟨p, q⟩ := by
  cases h with
  | nil p => rfl
  | @cons _ _ e es hstart hle hrest =>
    have hspan : e.span = ⟨p, e.span.stop⟩ := Span.ext hstart rfl
    rw [Element.spanOf?, Option.getD_some, hspan]
    exact hrest.foldl_join hle

theorem of_laidAll {before : Text} (h : Token.LaidAll before ts) :
    Chained Token.fullSpan (Position.origin.advance before) ts
      (Position.origin.advance (before ++ Token.renderAll ts)) := by
  induction ts generalizing before with
  | nil =>
    rw [Token.renderAll_nil, List.append_nil]
    exact .nil _
  | cons t ts ih =>
    obtain ⟨ht, hts⟩ := Token.laidAll_cons.mp h
    have hspan := ht.fullSpan
    refine .cons (by rw [hspan, Span.start_behind]) ?_ ?_
    · rw [hspan]
      exact Span.isValid_behind _ _
    · rw [hspan, Span.stop_behind, Token.renderAll_cons, ← List.append_assoc]
      exact ih hts

/-- Tokens that are moved together, so that no two positions change places. -/
theorem map {f : Position → Position} (hf : ∀ a b, a ≤ b → b ≤ q → f a ≤ f b)
    (h : Chained Token.fullSpan p ts q) :
    Chained Token.fullSpan (f p) (ts.map (·.mapSpans fun r => ⟨f r.start, f r.stop⟩)) (f q) := by
  induction h with
  | nil p => exact .nil _
  | @cons p q t ts hstart hle hrest ih =>
    have hspan : (t.mapSpans fun r => ⟨f r.start, f r.stop⟩).fullSpan =
        ⟨f t.fullSpan.start, f t.fullSpan.stop⟩ := by
      rw [Token.fullSpan, Token.fullSpan, Token.leading_mapSpans, Token.trailing_mapSpans,
        List.head?_map, List.getLast?_map]
      cases t.leading.head? <;> cases t.trailing.getLast? <;> rfl
    rw [List.map_cons]
    refine .cons (by rw [hspan, hstart]) ?_ ?_
    · rw [hspan]
      exact hf _ _ hle hrest.le
    · rw [hspan]
      exact ih hf

/-- Other trivia in front of the first token. -/
theorem lead {trivia : List Lexeme} (h : Chained Token.fullSpan p (t :: ts) q) (hr : r ≤ p)
    (hstart : (trivia.head?.map (·.span.start)).getD t.span.start = r) :
    Chained Token.fullSpan r ({ t with leading := trivia } :: ts) q := by
  cases h with
  | cons _ hle hrest => exact .cons hstart (Position.le_trans hr hle) hrest

end Chained

mutual

/-- A node without tokens in front of its first one, as far down as its first child goes. -/
def Node.Headed : Node → Prop
  | ⟨_, _, _, es⟩ => Element.Headed es

def Element.Headed : List Element → Prop
  | [] => False
  | .token _ :: _ => True
  | .node n :: _ => n.Headed

end

mutual

theorem Node.headed_skeleton : ∀ n : Node, n.skeleton.Headed ↔ n.Headed
  | ⟨id, kind, span, es⟩ => by
    rw [Node.skeleton, Node.Headed, Node.Headed]
    exact Element.headed_skeletonAll es

theorem Element.headed_skeletonAll : ∀ es : List Element,
    Element.Headed (Element.skeletonAll es) ↔ Element.Headed es
  | [] => Iff.rfl
  | .token _ :: _ => Iff.rfl
  | .node n :: _ => Node.headed_skeleton n

end

theorem Node.Headed.of_skeleton {m n : Node} (h : n.Headed) (heq : m.skeleton = n.skeleton) :
    m.Headed := by
  rwa [← Node.headed_skeleton, heq, Node.headed_skeleton]

mutual

/-- The place where such a node stands is that of its first token. -/
theorem Node.Headed.respanFrom : ∀ {n : Node}, n.Headed → ∀ p q : Position,
    n.respanFrom p = n.respanFrom q
  | ⟨id, kind, span, es⟩, h, p, q => by
    have hes : Element.respanAll p es = Element.respanAll q es := Element.Headed.respanAll h p q
    rw [Node.respanFrom, Node.respanFrom, hes]
    cases es with
    | nil => exact h.elim
    | cons e es => cases e <;> rfl

theorem Element.Headed.respanAll : ∀ {es : List Element}, Element.Headed es →
    ∀ p q : Position, Element.respanAll p es = Element.respanAll q es
  | .token _ :: _, _, _, _ => rfl
  | .node n :: es, h, p, q => by
    have hn : n.respanFrom p = n.respanFrom q := Node.Headed.respanFrom h p q
    rw [Element.respanAll, Element.respanAll, hn]

end

mutual

/-- A node covers its tokens. -/
theorem Node.span_respanFrom {p q : Position} : ∀ {n : Node},
    Chained Token.fullSpan p n.tokens q → (n.respanFrom p).span = ⟨p, q⟩
  | ⟨id, kind, span, es⟩, h => by
    have hes : Chained Element.span p (Element.respanAll p es) q := Element.chained_respanAll h
    rw [Node.respanFrom]
    exact hes.spanOf?

theorem Element.chained_respanAll {p q : Position} : ∀ {es : List Element},
    Chained Token.fullSpan p (Element.tokensOf es) q →
      Chained Element.span p (Element.respanAll p es) q
  | [], h => by
    cases h
    exact .nil p
  | .token t :: es, h => by
    rw [Element.tokensOf_token] at h
    cases h with
    | cons hstart hle hrest => exact .cons hstart hle (Element.chained_respanAll hrest)
  | .node n :: es, h => by
    rw [Element.tokensOf_node] at h
    obtain ⟨r, hn, hes⟩ := h.of_append
    have hspan : (n.respanFrom p).span = ⟨p, r⟩ := Node.span_respanFrom hn
    rw [Element.respanAll]
    refine .cons (by rw [Element.span, hspan]) (by rw [Element.span, hspan]; exact hn.le) ?_
    rw [Element.span, hspan]
    exact Element.chained_respanAll hes

end

namespace Node

variable {m n : Node} {p q : Position}

/-- A node whose spans were computed covers its tokens. -/
theorem span_respan (h : Chained Token.fullSpan p n.tokens q) (hne : n.tokens ≠ []) :
    n.respan.span = ⟨p, q⟩ := by
  have hstart : (n.tokens.head?.map (·.fullSpan.start)).getD n.span.start = p := by
    cases htokens : n.tokens with
    | nil => exact absurd htokens hne
    | cons t ts =>
      rw [htokens] at h
      cases h with
      | cons hstart => exact hstart
  rw [respan, hstart]
  exact span_respanFrom h

/-- So does a child of such a node. -/
theorem span_child_respan_of_headed (h : m ∈ n.respan.children) (hheaded : m.Headed)
    (htokens : Chained Token.fullSpan p m.tokens q) : m.span = ⟨p, q⟩ := by
  obtain ⟨id, kind, span, es⟩ := n
  obtain ⟨hint, k, rfl⟩ := Element.exists_respanFrom (mem_children.mp h)
  rw [tokens_respanFrom] at htokens
  rw [(hheaded.of_skeleton (skeleton_respanFrom hint k).symm).respanFrom hint p]
  exact span_respanFrom htokens

end Node

/-- A text that is moved to a place where there is room for it. -/
theorem Node.Laid.chained_place {n : Node} (h : n.Laid []) {p : Position}
    (hroom : p.HasRoom n.render.length) :
    Chained Token.fullSpan p (n.place p).tokens (p.advance n.render) := by
  let q := Position.origin.advance n.render
  obtain ⟨hline, hcolumn⟩ : q.line ≤ n.render.length ∧ q.column ≤ n.render.length := by
    have hbound := Position.origin.advance_bound n.render
    rwa [show Position.origin.line = 0 from rfl, show Position.origin.column = 0 from rfl,
      Nat.zero_add] at hbound
  have hchained : Chained Token.fullSpan .origin n.tokens q := by
    have hlaid := Chained.of_laidAll h.laidAll_tokens
    rwa [List.nil_append] at hlaid
  have hshift : ∀ a b, a ≤ b → b ≤ q →
      a.shift 0 p.line p.column ≤ b.shift 0 p.line p.column := by
    intro a b hab hbq
    exact Position.shift_mono hab hbq (Nat.le_trans (Nat.add_le_add_left hline _) hroom.1)
  have hmoved := hchained.map hshift
  have horigin : Position.origin.shift 0 p.line p.column = p := by
    rw [Position.shift_eq_plus hroom (Nat.zero_le _) (Nat.zero_le _), Position.plus_origin]
  have hend : q.shift 0 p.line p.column = p.advance n.render := by
    rw [p.advance_eq_plus, Position.shift_eq_plus hroom hline hcolumn]
  rw [horigin, hend] at hmoved
  have hspan : n.span.start.line = 0 := by
    rw [h.span]
    rfl
  have htokens : (n.place p).tokens =
      n.tokens.map (·.mapSpans (·.shift 0 p.line p.column)) := by
    rw [Node.place, Node.shift, Node.mapSpans, hspan]
    exact n.tokens_moved _ _
  rwa [htokens]

end CssTree
