import CssTree.Proofs.Text.Patch
import CssTree.Proofs.Token.Filled
import CssTree.Proofs.Tree.Chain
import CssTree.Proofs.Tree.Unspanned

namespace CssTree

namespace Lexeme

/-- Where lexemes end that are written one after another from `p` on. -/
def after (p : Position) (ls : List Lexeme) : Position := ls.foldl (fun q l => q.advance l.text) p

/-- Lexemes that are written one after another from `p` on. -/
def Strung (p : Position) : List Lexeme → Prop
  | [] => True
  | l :: ls => l.span = .ofText p l.text ∧ Strung (p.advance l.text) ls

variable {p q : Position} {l : Lexeme} {ls xs ys : List Lexeme}

@[simp] theorem after_nil (p : Position) : after p [] = p := rfl

@[simp] theorem after_cons (p : Position) (l : Lexeme) (ls : List Lexeme) :
    after p (l :: ls) = after (p.advance l.text) ls := rfl

theorem after_append (p : Position) (xs ys : List Lexeme) :
    after p (xs ++ ys) = after (after p xs) ys := List.foldl_append

theorem after_plus (p q : Position) (ls : List Lexeme) :
    after (p.plus q) ls = p.plus (after q ls) := by
  induction ls generalizing q with
  | nil => rfl
  | cons l ls ih =>
    rw [after_cons, after_cons, Position.advance_eq_plus, Position.plus_plus,
      ← Position.advance_eq_plus, ih]

theorem le_after (p : Position) (ls : List Lexeme) : p ≤ after p ls := by
  induction ls generalizing p with
  | nil => exact Position.le_refl p
  | cons l ls ih => exact Position.le_trans (Position.le_advance p l.text) (ih _)

@[simp] theorem strung_nil (p : Position) : Strung p [] := trivial

@[simp] theorem strung_cons : Strung p (l :: ls) ↔
    l.span = .ofText p l.text ∧ Strung (p.advance l.text) ls := Iff.rfl

theorem strung_append : Strung p (xs ++ ys) ↔ Strung p xs ∧ Strung (after p xs) ys := by
  induction xs generalizing p with
  | nil => simp
  | cons x xs ih => simp only [List.cons_append, strung_cons, ih, after_cons, and_assoc]

/-- Lexemes that cut no line break lie where their text says if they are written one after another. -/
theorem laid_iff_strung {before : Text} (hwhole : Unfused (before :: ls.map Lexeme.text)) :
    Laid before ls ↔ Strung (Position.origin.advance before) ls := by
  induction ls generalizing before with
  | nil => exact Iff.rfl
  | cons l ls ih =>
    obtain ⟨hfuse, hrest⟩ := hwhole.cons_cons
    rw [laid_cons, strung_cons, Span.ofText_eq_behind hfuse, ih hrest, Position.advance_append hfuse]

/-- Where lexemes end if they cut no line break. -/
theorem after_of_unfused {before : Text} (h : Unfused (before :: ls.map Lexeme.text)) :
    after (Position.origin.advance before) ls = Position.origin.advance (before ++ render ls) := by
  induction ls generalizing before with
  | nil => simp
  | cons l ls ih =>
    obtain ⟨hfuse, hrest⟩ := h.cons_cons
    rw [after_cons, ← Position.advance_append hfuse, ih hrest, render_cons, List.append_assoc]

theorem after_map_moved (f : Span → Span) (p : Position) (ls : List Lexeme) :
    after p (ls.map (·.moved f)) = after p ls := by
  rw [after, List.foldl_map]
  rfl

theorem le_of_mem_strung (h : Strung p ls) : ∀ l ∈ ls, p ≤ l.span.start ∧ l.span.stop ≤ after p ls := by
  induction ls generalizing p with
  | nil => simp
  | cons l ls ih =>
    obtain ⟨hspan, hrest⟩ := h
    refine List.forall_mem_cons.mpr ⟨?_, fun m hm => ?_⟩
    · rw [hspan]
      exact ⟨Position.le_refl p, le_after _ ls⟩
    · obtain ⟨hstart, hstop⟩ := ih hrest m hm
      exact ⟨Position.le_trans (Position.le_advance p l.text) hstart, hstop⟩

@[simp] theorem filled_map_moved (f : Span → Span) : Filled (xs.map (·.moved f)) ↔ Filled xs :=
  List.forall_mem_map

theorem Strung.start_lt (h : Strung p xs) (hfilled : Filled xs) :
    ∀ l ∈ xs, l.span.start < l.span.stop := by
  induction xs generalizing p with
  | nil => simp
  | cons x xs ih =>
    obtain ⟨hx, hxs⟩ := List.forall_mem_cons.mp hfilled
    refine List.forall_mem_cons.mpr ⟨?_, ih h.2 hxs⟩
    rw [h.1]
    show p < p.advance x.text
    rw [Position.advance_eq_plus]
    exact Position.lt_plus (Position.advance_ne_origin hx)

theorem lt_after (h : Filled xs) (hne : xs ≠ []) : p < after p xs := by
  obtain ⟨l, ls, rfl⟩ := List.exists_cons_of_ne_nil hne
  have hl : p < p.advance l.text := by
    rw [Position.advance_eq_plus]
    exact Position.lt_plus (Position.advance_ne_origin (h l List.mem_cons_self))
  exact Position.lt_of_lt_of_le hl (le_after _ ls)

/-- A lexeme without its place. -/
def faded (l : Lexeme) : Lexeme := l.moved fun _ => default

/-- Lexemes that say the same and are written from the same place. -/
theorem Strung.eq (hxs : Strung p xs) (hys : Strung p ys) (h : xs.map faded = ys.map faded) :
    xs = ys := by
  induction xs generalizing p ys with
  | nil => simpa using h.symm
  | cons x xs ih =>
    cases ys with
    | nil => simp at h
    | cons y ys =>
      obtain ⟨hfirst, hrest⟩ := List.cons_eq_cons.mp h
      obtain ⟨hkind, htext, -⟩ := Lexeme.mk.inj hfirst
      have hspan : x.span = y.span := by rw [hxs.1, hys.1, htext]
      have hxy : x = y := by
        cases x
        cases y
        simp_all
      rw [hxy, ih hxs.2 (htext ▸ hys.2) hrest]

end Lexeme

namespace Token

variable {p q : Position} {t u : Token} {ts us : List Token}

/-- Where tokens end that are written one after another from `p` on. -/
def after (p : Position) (ts : List Token) : Position := Lexeme.after p (lexemesOf ts)

/-- Tokens whose lexemes are written one after another from `p` on. -/
def Strung (p : Position) (ts : List Token) : Prop := Lexeme.Strung p (lexemesOf ts)

@[simp] theorem after_nil (p : Position) : after p [] = p := rfl

theorem after_append (p : Position) (ts us : List Token) :
    after p (ts ++ us) = after (after p ts) us := by
  rw [after, lexemesOf_append, Lexeme.after_append]
  rfl

theorem after_cons (p : Position) (t : Token) (ts : List Token) :
    after p (t :: ts) = after (after p [t]) ts := after_append p [t] ts

theorem after_plus (p q : Position) (ts : List Token) :
    after (p.plus q) ts = p.plus (after q ts) := Lexeme.after_plus p q _

theorem le_after (p : Position) (ts : List Token) : p ≤ after p ts := Lexeme.le_after p _

@[simp] theorem strung_nil (p : Position) : Strung p [] := trivial

theorem strung_append : Strung p (ts ++ us) ↔ Strung p ts ∧ Strung (after p ts) us := by
  rw [Strung, lexemesOf_append, Lexeme.strung_append]
  rfl

theorem strung_cons : Strung p (t :: ts) ↔ Strung p [t] ∧ Strung (after p [t]) ts := by
  rw [← strung_append, List.singleton_append]

theorem Strung.fullSpan (h : Strung p [t]) : t.fullSpan = ⟨p, after p [t]⟩ := by
  rw [Strung, lexemesOf_cons, lexemesOf_nil, List.append_nil, lexemes, Lexeme.strung_append,
    Lexeme.strung_cons] at h
  obtain ⟨hleading, hcore, htrailing⟩ := h
  have hafter : after p [t] =
      Lexeme.after ((Lexeme.after p t.leading).advance t.text) t.trailing := by
    simp [after, lexemes, Lexeme.after_append]
  rw [hafter]
  refine Span.ext ?_ ?_
  · cases hl : t.leading with
    | nil => simp [Token.fullSpan, hl, hcore, Span.ofText]
    | cons l ls =>
      rw [hl] at hleading
      simp [Token.fullSpan, hl, hleading.1, Span.ofText]
  · rcases List.eq_nil_or_concat t.trailing with hl | ⟨ls, l, hl⟩
    · simp [Token.fullSpan, hl, hcore, Span.ofText]
    · rw [List.concat_eq_append] at hl
      rw [hl, Lexeme.strung_append, Lexeme.strung_cons] at htrailing
      simp [Token.fullSpan, hl, htrailing.2.1, Span.ofText, Lexeme.after_append]

theorem Strung.chained (h : Strung p ts) : Chained Token.fullSpan p ts (after p ts) := by
  induction ts generalizing p with
  | nil => exact .nil p
  | cons t ts ih =>
    obtain ⟨ht, hts⟩ := strung_cons.mp h
    rw [after_cons]
    refine .cons (by rw [ht.fullSpan]) ?_ ?_
    · rw [ht.fullSpan]
      exact le_after p [t]
    · rw [ht.fullSpan]
      exact ih hts

end Token

mutual

/-- A node that is written from `p` on with all that it holds. -/
def Node.Strung (p : Position) : Node → Prop
  | ⟨_, _, span, es⟩ => span = ⟨p, Token.after p (Element.tokensOf es)⟩ ∧ Element.StrungAll p es

/-- Elements that are written one after another from `p` on. -/
def Element.StrungAll (p : Position) : List Element → Prop
  | [] => True
  | .token t :: es => Token.Strung p [t] ∧ Element.StrungAll (Token.after p [t]) es
  | .node n :: es => n.Strung p ∧ Element.StrungAll (Token.after p n.tokens) es

end

theorem Node.Strung.span {p : Position} {n : Node} (h : n.Strung p) :
    n.span = ⟨p, Token.after p n.tokens⟩ := by
  cases n
  exact h.1

theorem Node.Strung.elements {p : Position} {n : Node} (h : n.Strung p) :
    Element.StrungAll p n.elements := by
  cases n
  exact h.2

theorem Node.strung_mk {p : Position} {id : NodeId} {kind : NodeKind} {span : Span}
    {es : List Element} : (Node.mk id kind span es).Strung p ↔
      span = ⟨p, Token.after p (Element.tokensOf es)⟩ ∧ Element.StrungAll p es := Iff.rfl

namespace Element

variable {p : Position} {t : Token} {n : Node} {es fs : List Element}

@[simp] theorem strungAll_nil (p : Position) : StrungAll p [] := trivial

theorem strungAll_token :
    StrungAll p (.token t :: es) ↔ Token.Strung p [t] ∧ StrungAll (Token.after p [t]) es := Iff.rfl

theorem strungAll_node :
    StrungAll p (.node n :: es) ↔ n.Strung p ∧ StrungAll (Token.after p n.tokens) es := Iff.rfl

theorem strungAll_append :
    StrungAll p (es ++ fs) ↔ StrungAll p es ∧ StrungAll (Token.after p (tokensOf es)) fs := by
  induction es generalizing p with
  | nil => simp
  | cons e es ih =>
    cases e with
    | token t =>
      rw [List.cons_append, strungAll_token, strungAll_token, ih, tokensOf_token,
        Token.after_cons p t (tokensOf es), and_assoc]
    | node n =>
      rw [List.cons_append, strungAll_node, strungAll_node, ih, tokensOf_node,
        Token.after_append, and_assoc]

end Element

mutual

theorem Node.Strung.tokens : ∀ {p : Position} {n : Node}, n.Strung p → Token.Strung p n.tokens
  | _, ⟨_, _, _, _⟩, h => Element.StrungAll.tokensOf h.2

theorem Element.StrungAll.tokensOf : ∀ {p : Position} {es : List Element}, Element.StrungAll p es →
    Token.Strung p (Element.tokensOf es)
  | _, [], _ => trivial
  | _, .token _ :: _, h => by
    rw [Element.tokensOf_token]
    exact Token.strung_cons.mpr ⟨h.1, Element.StrungAll.tokensOf h.2⟩
  | _, .node _ :: _, h => by
    rw [Element.tokensOf_node]
    exact Token.strung_append.mpr ⟨Node.Strung.tokens h.1, Element.StrungAll.tokensOf h.2⟩

end

mutual

/-- Spans that are computed from tokens are those of the tokens. -/
theorem Node.strung_respanFrom {p : Position} : ∀ {n : Node}, Token.Strung p n.tokens →
    (n.respanFrom p).Strung p
  | ⟨id, kind, span, es⟩, h => by
    have hspan := Node.span_respanFrom (n := ⟨id, kind, span, es⟩) h.chained
    have hes : Element.StrungAll p (Element.respanAll p es) := Element.strungAll_respanAll h
    rw [Node.respanFrom] at hspan ⊢
    refine ⟨?_, hes⟩
    rw [Element.tokensOf_respanAll]
    exact hspan

theorem Element.strungAll_respanAll {p : Position} : ∀ {es : List Element},
    Token.Strung p (Element.tokensOf es) → Element.StrungAll p (Element.respanAll p es)
  | [], _ => trivial
  | .token t :: es, h => by
    rw [Element.tokensOf_token, Token.strung_cons] at h
    rw [Element.respanAll, h.1.fullSpan]
    exact ⟨h.1, Element.strungAll_respanAll h.2⟩
  | .node n :: es, h => by
    rw [Element.tokensOf_node, Token.strung_append] at h
    have hn : (n.respanFrom p).Strung p := Node.strung_respanFrom h.1
    rw [Element.respanAll]
    simp only [hn.span, Node.tokens_respanFrom]
    refine ⟨hn, ?_⟩
    rw [Node.tokens_respanFrom]
    exact Element.strungAll_respanAll h.2

end

namespace Node

variable {p : Position} {n m : Node}

/-- A node without tokens has to be in place before. -/
theorem strung_respan (h : Token.Strung p n.tokens) (hempty : n.tokens = [] → n.span.start = p) :
    n.respan.Strung p := by
  suffices hhint : (n.tokens.head?.map (·.fullSpan.start)).getD n.span.start = p by
    rw [respan, hhint]
    exact strung_respanFrom h
  cases htokens : n.tokens with
  | nil => exact hempty htokens
  | cons t ts =>
    rw [htokens, Token.strung_cons] at h
    rw [List.head?_cons, Option.map_some, Option.getD_some, h.1.fullSpan]

theorem Strung.respan (h : n.Strung p) : n.respan.Strung p :=
  strung_respan h.tokens fun _ => congrArg Span.start h.span

end Node

theorem Token.after_of_unfused {before : Text} {ts : List Token}
    (h : Unfused (before :: (lexemesOf ts).map Lexeme.text)) :
    after (Position.origin.advance before) ts = Position.origin.advance (before ++ renderAll ts) :=
  (Lexeme.after_of_unfused h).trans (by rw [render_lexemesOf])

/-- What stands behind tokens is not cut from them in the middle of a line break either. -/
theorem Unfused.behind {before : Text} {ts us : List Token}
    (h : Unfused (before :: (Token.lexemesOf (ts ++ us)).map Lexeme.text)) :
    Unfused (before :: (Token.lexemesOf ts).map Lexeme.text) ∧
      Unfused ((before ++ Token.renderAll ts) :: (Token.lexemesOf us).map Lexeme.text) := by
  rw [Token.lexemesOf_append, List.map_append, ← List.cons_append] at h
  refine ⟨h.left, ?_⟩
  have hmerge := Unfused.merge [] (before :: (Token.lexemesOf ts).map Lexeme.text)
    ((Token.lexemesOf us).map Lexeme.text) h
  simpa [Lexeme.flatten_texts, Token.render_lexemesOf] using hmerge

mutual

/-- A node that cuts no line break lies where its text says if it is written from there on. -/
theorem Node.laid_iff_strung : ∀ {before : Text} {n : Node},
    Unfused (before :: (Token.lexemesOf n.tokens).map Lexeme.text) →
      (n.Laid before ↔ n.Strung (Position.origin.advance before))
  | before, ⟨_, _, span, es⟩, h => by
    have hspan : Span.behind before (Element.renderAll es) = ⟨Position.origin.advance before,
        Token.after (Position.origin.advance before) (Element.tokensOf es)⟩ :=
      Span.ext rfl (Token.after_of_unfused h).symm
    have hes := Element.laidAll_iff_strungAll h
    rw [Node.Laid, Node.strung_mk, hspan, hes]

theorem Element.laidAll_iff_strungAll : ∀ {before : Text} {es : List Element},
    Unfused (before :: (Token.lexemesOf (Element.tokensOf es)).map Lexeme.text) →
      (Element.LaidAll before es ↔ Element.StrungAll (Position.origin.advance before) es)
  | _, [], _ => Iff.rfl
  | before, .token t :: es, h => by
    have hsplit : Unfused (before ::
        (Token.lexemesOf ([t] ++ Element.tokensOf es)).map Lexeme.text) := h
    obtain ⟨hfirst, hrest⟩ := hsplit.behind
    have ht : Token.LaidAll before [t] ↔ Token.Strung (Position.origin.advance before) [t] :=
      Lexeme.laid_iff_strung hfirst
    rw [Token.laidAll_cons, and_iff_left (Token.laidAll_nil _)] at ht
    rw [Token.renderAll_cons, Token.renderAll_nil, List.append_nil] at hrest
    have hes := Element.laidAll_iff_strungAll hrest
    rw [Element.laidAll_token, Element.strungAll_token, ht, hes, Token.after_of_unfused hfirst,
      Token.renderAll_cons, Token.renderAll_nil, List.append_nil]
  | before, .node n :: es, h => by
    rw [Element.tokensOf_node] at h
    obtain ⟨hfirst, hrest⟩ := h.behind
    have hn := Node.laid_iff_strung hfirst
    have hes := Element.laidAll_iff_strungAll hrest
    rw [Element.laidAll_node, Element.strungAll_node, hn, Token.after_of_unfused hfirst]
    exact and_congr_right fun _ => hes

end

/-- The same for a node at the start of a text. -/
theorem Node.laid_iff_of_whole {n : Node} (h : Lexeme.Whole (Token.lexemesOf n.tokens)) :
    n.Laid [] ↔ n.Strung .origin := laid_iff_strung (Unfused.merge [] [] _ h)

end CssTree
