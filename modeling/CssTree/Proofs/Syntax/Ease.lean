import CssTree.Proofs.Syntax.Declaration

namespace CssTree.Syntax

open Token Grammar

variable {t t' : Token} {ts us : List Token} {n : Node} {next : TokenKind}

/-- The tokens `us` are the tokens `ts` with `t'` for `t` at the end. -/
def Eases (t t' : Token) (ts us : List Token) : Prop :=
  ∃ front, ts = front ++ [t] ∧ us = front ++ [t']

theorem Eases.append (h : Eases t t' ts us) (xs : List Token) :
    Eases t t' (xs ++ ts) (xs ++ us) := by
  obtain ⟨front, rfl, rfl⟩ := h
  exact ⟨xs ++ front, by simp, by simp⟩

/-- What ends a list of values at a string does so at a bad string. -/
theorem Eases.stops (h : Eases t t' ts us) (ht' : t'.kind = .string) {stop : List TokenKind}
    (hstop : .string ∉ stop) {important : Bool} (hus : Stops stop important us) :
    Stops stop important ts := by
  obtain ⟨front, rfl, rfl⟩ := h
  match front with
  | [] => simp [Stops, marksImportant, ht', hstop] at hus
  | [a] => 
    have hident : ∀ name, t'.isIdent name = false := by simp [isIdent, ht']
    have hmark : marksImportant [a, t'] = false := by simp [marksImportant, hident]
    simp only [Stops, List.cons_append, List.nil_append, headKind_cons, hmark] at hus ⊢
    simpa using hus.imp_right fun h => h.imp_right fun h => Or.inl (by simpa using h)
  | a :: b :: front => exact hus

/-- In front of a token that ends nothing, no bracket is open. -/
theorem Component.of_next {next' : TokenKind} (h : Component next n) (heof : next ≠ .eof)
    (hbrace : next ≠ .closeBrace) : Component next' n := by
  cases h with
  | token hclose hend => exact .token hclose hend
  | closed hclose hns hgo => exact .closed hclose hns hgo
  | unclosed hclose hnext hns hgo => exact absurd hnext (by simp [heof, hbrace])

/-- The last one of some values may be exchanged for another with an eased end. -/
theorem Components.ease {stop : List TokenKind} {important : Bool} {ns : List Node} {m m' : Node}
    (h : Components stop important next (ns ++ [m])) (ht : t.kind = .badString)
    (ht' : t'.kind = .string) (hstop : .string ∉ stop) (hm : Eases t t' m.tokens m'.tokens)
    (hm' : Component next m') : Components stop important next (ns ++ [m']) := by
  -- What stands behind a value is the same, but for its end.
  have hsplit : ∀ xs c ys, ns ++ [m'] = xs ++ c :: ys → xs = ns ∧ c = m' ∧ ys = [] ∨
      ∃ zs, ys = zs ++ [m'] ∧ ns ++ [m] = xs ++ c :: (zs ++ [m]) := by
    intro xs c ys heq
    rcases List.eq_nil_or_concat ys with rfl | ⟨zs, z, rfl⟩
    · obtain ⟨rfl, hc⟩ := List.append_inj' heq rfl
      exact Or.inl ⟨rfl, (List.cons.inj hc).1.symm, rfl⟩
    · rw [List.concat_eq_append, ← List.cons_append, ← List.append_assoc] at heq
      obtain ⟨rfl, hz⟩ := List.append_inj' heq rfl
      obtain rfl := (List.cons.inj hz).1
      exact Or.inr ⟨zs, List.concat_eq_append, by simp⟩
  have htail : ∀ zs, Eases t t' (Node.tokensOf (zs ++ [m])) (Node.tokensOf (zs ++ [m'])) := by
    intro zs
    rw [Node.tokensOf_append, Node.tokensOf_append]
    exact Eases.append (by simpa using hm) _
  constructor
  · intro xs c ys heq
    rcases hsplit xs c ys heq with ⟨rfl, rfl, rfl⟩ | ⟨zs, rfl, hold⟩
    · exact hm'
    · have hc := h.component xs c _ hold
      obtain ⟨front, hfront, hfront'⟩ := htail zs
      rw [hfront] at hc
      rw [hfront']
      cases front with
      | nil =>
        have hkind : Component t.kind c := hc
        exact hkind.of_next (by simp [ht]) (by simp [ht])
      | cons a front => exact hc
  · intro xs c ys heq hstops
    rcases hsplit xs c ys heq with ⟨rfl, rfl, rfl⟩ | ⟨zs, rfl, hold⟩
    · have hself : Eases t t' (m.tokens ++ Node.tokensOf []) (c.tokens ++ Node.tokensOf []) := by
        simpa using hm
      exact h.goes xs m [] rfl (hself.stops ht' hstop hstops)
    · exact h.goes xs c _ hold (((htail zs).append c.tokens).stops ht' hstop hstops)

/-- A value that ends with a bad string, and the same with a string in its place. -/
theorem Component.ease (h : Component next n) (ht : t.kind = .badString) (ht' : t'.kind = .string) :
    ∀ {front : List Token}, n.tokens = front ++ [t] → ∃ m, Component next m ∧
      Eases t t' n.tokens m.tokens ∧ ∀ k, n.NestsWithin k → m.NestsWithin k := by
  induction h with
  | @token next id span u hclose hend =>
    intro front htokens
    refine ⟨⟨id, .preservedToken, span, [.token t']⟩,
      .token (by rw [ht']; rfl) (by rw [ht']; decide), ?_, ?_⟩
    · have hone : [] ++ [u] = front ++ [t] := htokens
      obtain ⟨rfl, hu⟩ := List.append_inj' hone rfl
      exact ⟨[], hu, rfl⟩
    · intro k _
      exact Node.nestsWithin_of_not_nests (.token .nil) rfl
  | @closed next id vid span vspan opening closing ns hclose hns hgo ih =>
    intro front htokens
    have hends : (opening :: Node.tokensOf ns) ++ [closing] = front ++ [t] := by
      simpa using htokens
    obtain ⟨-, hlast⟩ := List.append_inj' hends rfl
    rw [(List.cons.inj hlast).1, ht] at hclose
    cases hkind : opening.kind <;> simp [hkind, TokenKind.closing?] at hclose
  | @unclosed next id vid span vspan opening close ns hclose hnext hns hgo ih =>
    intro front htokens
    rcases List.eq_nil_or_concat ns with rfl | ⟨xs, b, rfl⟩
    · have hone : [] ++ [opening] = front ++ [t] := htokens
      obtain ⟨-, hlast⟩ := List.append_inj' hone rfl
      rw [(List.cons.inj hlast).1, ht] at hclose
      cases hclose
    · rw [List.concat_eq_append] at *
      obtain ⟨init, u, hb⟩ : ∃ init u, b.tokens = init ++ [u] :=
        ⟨_, _, (List.dropLast_append_getLast (hns xs b [] rfl).tokens_ne_nil).symm⟩
      have hends : (opening :: (Node.tokensOf xs ++ init)) ++ [u] = front ++ [t] := by
        simpa [hb] using htokens
      obtain ⟨-, hlast⟩ := List.append_inj' hends rfl
      obtain rfl := (List.cons.inj hlast).1
      obtain ⟨m, hm, heases, hnests⟩ := ih xs b [] rfl hb
      have hold : Components [close] false next (xs ++ [b]) := ⟨hns, hgo⟩
      have hnew := hold.ease ht ht' (by
        have hne : close ≠ .string := by
          rintro rfl
          cases hkind : opening.kind <;> simp [hkind, TokenKind.closing?] at hclose
        simpa using hne.symm) heases hm
      refine ⟨⟨id, blockKind opening.kind, span,
        [.token opening, .node ⟨vid, .valueList, vspan, (xs ++ [m]).map .node⟩]⟩,
        .unclosed hclose hnext hnew.component hnew.goes, ?_, fun k hk => ?_⟩
      · have htail := heases.append (opening :: Node.tokensOf xs)
        simpa using htail
      · obtain ⟨j, rfl, hj⟩ := hk.inside nests_block
        have hvalues := (hj _ (List.mem_cons_of_mem _ List.mem_cons_self)).below
        refine Node.nestsWithin_succ (.token (.node ?_ .nil))
        refine Node.nestsWithin_of_not_nests (.nodes fun c hc => ?_) rfl
        rcases List.mem_append.mp hc with hc | hc
        · exact hvalues c (List.mem_map_of_mem (List.mem_append_left _ hc))
        · rw [List.mem_singleton.mp hc]
          exact hnests j (hvalues b (List.mem_map_of_mem (by simp)))

theorem Values.ease {stop : List TokenKind} {important : Bool} {v : Node} {front : List Token}
    (h : Values stop important next v) (ht : t.kind = .badString) (ht' : t'.kind = .string)
    (hstop : .string ∉ stop) (hv : v.tokens = front ++ [t]) : ∃ v', Values stop important next v' ∧
      Eases t t' v.tokens v'.tokens ∧ ∀ k, v.NestsWithin k → v'.NestsWithin k := by
  obtain ⟨hkind, ns, helements, hns⟩ := h
  have htokens : v.tokens = Node.tokensOf ns := by
    rw [← v.tokens_eq, helements, Node.tokensOf_nodes]
  rw [htokens] at hv ⊢
  rcases List.eq_nil_or_concat ns with rfl | ⟨xs, b, rfl⟩
  · exact absurd hv (by simp)
  · rw [List.concat_eq_append] at *
    have hb : Component next b := hns.component xs b [] rfl
    obtain ⟨init, u, hu⟩ : ∃ init u, b.tokens = init ++ [u] :=
      ⟨_, _, (List.dropLast_append_getLast hb.tokens_ne_nil).symm⟩
    have hends : (Node.tokensOf xs ++ init) ++ [u] = front ++ [t] := by simpa [hu] using hv
    obtain ⟨-, hlast⟩ := List.append_inj' hends rfl
    obtain rfl := (List.cons.inj hlast).1
    obtain ⟨m, hm, heases, hnests⟩ := hb.ease ht ht' hu
    refine ⟨⟨0, .valueList, default, (xs ++ [m]).map .node⟩,
      ⟨rfl, xs ++ [m], rfl, hns.ease ht ht' hstop heases hm⟩, ?_, fun k hk => ?_⟩
    · have htail := heases.append (Node.tokensOf xs)
      simpa using htail
    · have hvalues := hk.below
      rw [helements] at hvalues
      refine Node.nestsWithin_of_not_nests (.nodes fun c hc => ?_) rfl
      rcases List.mem_append.mp hc with hc | hc
      · exact hvalues c (List.mem_map_of_mem (List.mem_append_left _ hc))
      · rw [List.mem_singleton.mp hc]
        exact hnests k (hvalues b (List.mem_map_of_mem (by simp)))

/-- A declaration that ends with a bad string ends with its value, and has the shape of one with a
string in its place. -/
theorem IsDeclaration.ease {d : Declaration} {front : List Token} (h : IsDeclaration next d)
    (hopening : d.opening = none) (ht : t.kind = .badString) (ht' : t'.kind = .string)
    (hd : behindOpening d = front ++ [t]) : ∃ v, IsDeclaration next { d with value := v } ∧
      behindOpening { d with value := v } = front ++ [t'] ∧ Eases t t' d.value.tokens v.tokens ∧
        ∀ k, d.value.NestsWithin k → v.NestsWithin k := by
  obtain ⟨hclosing, -⟩ := h.enabled hopening
  have hlast : ∀ {init : List Token} {u : Token}, behindOpening d = init ++ [u] → u = t := by
    intro init u hu
    exact (List.cons.inj (List.append_inj' (hu.symm.trans hd) rfl).2).1
  have hsemicolon : d.semicolon = none := by
    cases hs : d.semicolon with
    | none => rfl
    | some c =>
      have hends : behindOpening d = d.name :: d.colon :: (d.value.tokens ++
          (d.important.map Node.tokens).getD []) ++ [c] := by
        simp [behindOpening, afterValue, hs, hclosing]
      have hkind := h.semicolon c hs
      rw [hlast hends, ht] at hkind
      cases hkind
  have hmark : d.important = none := by
    cases hm : d.important with
    | none => rfl
    | some m =>
      obtain ⟨mark, word, htokens, -, hword⟩ := (h.important m hm).tokens
      have hends : behindOpening d = d.name :: d.colon :: (d.value.tokens ++ [mark]) ++ [word] := by
        simp [behindOpening, afterValue, hm, hsemicolon, hclosing, htokens]
      rw [hlast hends, isIdent, ht] at hword
      cases hword
  have hafter : afterValue d = [] := by simp [afterValue, hmark, hsemicolon, hclosing]
  have hbehind : behindOpening d = d.name :: d.colon :: d.value.tokens := by
    rw [behindOpening, hafter, List.append_nil]
  obtain ⟨init, hinit⟩ : ∃ init, d.value.tokens = init ++ [t] := by
    rcases List.eq_nil_or_concat d.value.tokens with hnil | ⟨init, u, hu⟩
    · have hends : behindOpening d = [d.name] ++ [d.colon] := by rw [hbehind, hnil]; rfl
      have hkind := h.colon
      rw [hlast hends, ht] at hkind
      cases hkind
    · have hends : behindOpening d = d.name :: d.colon :: init ++ [u] := by
        rw [hbehind, hu, List.concat_eq_append]
        rfl
      exact ⟨init, by rw [hu, hlast hends, List.concat_eq_append]⟩
  have hvalue := h.value
  obtain ⟨v, hv, heases, hnests⟩ := hvalue.ease ht ht' (by decide) hinit
  refine ⟨v, { h with value := hv }, ?_, heases, hnests⟩
  obtain ⟨front', hfront, hv'⟩ := heases
  have hsame : d.name :: d.colon :: front' = front := by
    rw [hbehind, hfront, ← List.cons_append, ← List.cons_append] at hd
    exact (List.append_inj' hd rfl).1
  show d.name :: d.colon :: (v.tokens ++ afterValue d) = _
  rw [hafter, List.append_nil, hv', ← hsame]
  rfl

end CssTree.Syntax
