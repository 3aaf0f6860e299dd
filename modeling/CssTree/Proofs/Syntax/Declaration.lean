import CssTree.Proofs.Grammar.Declaration
import CssTree.Proofs.Syntax.Value
import CssTree.Proofs.Tree.Declared

namespace CssTree.Syntax

open Token Grammar

theorem tokensOf_ofToken? (t : Option Token) : Element.tokensOf (Element.ofToken? t) = t.toList :=
  Element.tokensOf_map_token _

/-- The tokens behind the value of a declaration. -/
def afterValue (d : Declaration) : List Token :=
  (d.important.map Node.tokens).getD [] ++ (d.semicolon.toList ++ d.closing.toList)

/-- The tokens behind the start of the comment around a declaration, if there is one. -/
def behindOpening (d : Declaration) : List Token :=
  d.name :: d.colon :: (d.value.tokens ++ afterValue d)

/-- The mark of an important declaration. -/
def IsMark (m : Node) : Prop :=
  m.kind = .importantValue ∧ ∃ mark word, m.elements = [.token mark, .token word] ∧
    mark.isDelim '!' = true ∧ word.isIdent ['i', 'm', 'p', 'o', 'r', 't', 'a', 'n', 't'] = true

/-- What a declaration is in front of a token of the kind `next`. -/
structure IsDeclaration (next : TokenKind) (d : Declaration) : Prop where
  name : d.name.kind = .ident
  colon : d.colon.kind = .colon
  value : Values [.semicolon, .closeComment] true (kindBefore (afterValue d) next) d.value
  important : ∀ m ∈ d.important, IsMark m
  semicolon : ∀ t ∈ d.semicolon, t.kind = .semicolon
  disabled : d.opening.isSome = true → ∃ t ∈ d.closing, t.kind = .closeComment
  enabled : d.opening = none → d.closing = none ∧
    (d.semicolon = none → next = .closeBrace ∨ next = .eof)

theorem Component.before_end {next : TokenKind} {n : Node} {ts : List Token}
    (h : Component (kindBefore ts next) n) (hend : ts = [] → Component .eof n) :
    Component (kindBefore ts .eof) n := by
  cases ts with
  | nil => exact hend rfl
  | cons t ts => exact h

/-- A value may stand at the end of the text as well as elsewhere. -/
theorem Component.at_end {next : TokenKind} {n : Node} (h : Component next n) :
    Component .eof n := by
  induction h with
  | token hclose hend => exact .token hclose hend
  | closed hclose hns hgo _ => exact .closed hclose hns hgo
  | unclosed hclose hnext hns hgo ih =>
    exact .unclosed hclose (Or.inl rfl)
      (fun xs m ys hsplit => (hns xs m ys hsplit).before_end fun _ => ih xs m ys hsplit) hgo

theorem Values.at_end {stop : List TokenKind} {important : Bool} {next : TokenKind} {v : Node}
    {ts : List Token} (h : Values stop important (kindBefore ts next) v) :
    Values stop important (kindBefore ts .eof) v := by
  cases ts with
  | cons t ts => exact h
  | nil =>
    obtain ⟨hkind, ns, hv, hcomponent, hgo⟩ := h
    refine ⟨hkind, ns, hv, fun xs n ys hsplit => ?_, hgo⟩
    exact (hcomponent xs n ys hsplit).before_end fun _ => (hcomponent xs n ys hsplit).at_end

theorem IsDeclaration.at_end {next : TokenKind} {d : Declaration} (h : IsDeclaration next d) :
    IsDeclaration .eof d :=
  { h with
    value := h.value.at_end
    enabled := fun hopening => ⟨(h.enabled hopening).1, fun _ => Or.inr rfl⟩ }

/-- The delimiters of a declaration that is not disabled are of their kinds. -/
theorem IsDeclaration.formed {next : TokenKind} {d : Declaration} (h : IsDeclaration next d)
    (hopening : d.opening = none) : d.Formed :=
  ⟨by simp [hopening], by simp [h.name], h.semicolon, by simp [(h.enabled hopening).1]⟩

theorem IsMark.tokens {m : Node} (h : IsMark m) : ∃ mark word, m.tokens = [mark, word] ∧
    mark.isDelim '!' = true ∧ word.isIdent ['i', 'm', 'p', 'o', 'r', 't', 'a', 'n', 't'] = true := by
  obtain ⟨-, mark, word, helements, hmarks⟩ := h
  exact ⟨mark, word, by simp [← m.tokens_eq, helements], hmarks⟩

/-- Tokens that spell a mark of importance are one. -/
theorem IsMark.spells {m : Node} (h : IsMark m) {ts : List Token} (hts : Spells m.tokens ts) :
    ∃ t u, ts = [t, u] ∧ t.isDelim '!' = true ∧
      u.isIdent ['i', 'm', 'p', 'o', 'r', 't', 'a', 'n', 't'] = true := by
  obtain ⟨mark, word, htokens, hmark, hword⟩ := h.tokens
  rw [htokens] at hts
  obtain ⟨t, us, rfl, ht, hus⟩ := hts.exists_cons
  obtain ⟨u, vs, rfl, hu, hvs⟩ := hus.exists_cons
  obtain rfl := hvs.eq_nil
  exact ⟨t, u, rfl, (isDelim_of_bare ht '!') ▸ hmark, (isIdent_of_bare hu _) ▸ hword⟩

theorem kind_of_isDelim {t : Token} {c : Char} (h : t.isDelim c = true) : t.kind = .delim := by
  rw [isDelim, Bool.and_eq_true, decide_eq_true_eq] at h
  exact h.1

theorem marksImportant_of_head {ts : List Token} (h : headKind ts ≠ .delim) :
    marksImportant ts = false := by
  match ts with
  | [] => rfl
  | [t] => rfl
  | t :: u :: ts =>
    have hdelim : t.isDelim '!' = false := by
      rw [Bool.eq_false_iff]
      exact fun ht => h (kind_of_isDelim ht)
    simp [marksImportant, hdelim]

variable {d k : Nat} {t : Token} {ts us rest : List Token}

section Reading

variable {next : TokenKind} {e : Declaration}

/-- What stands behind a declaration without a semicolon. -/
theorem IsDeclaration.headKind_closing (h : IsDeclaration next e) (hsemicolon : e.semicolon = none)
    (hts : Spells e.closing.toList ts) (hnext : headKind rest = next) :
    headKind (ts ++ rest) ∈ [TokenKind.closeComment, .closeBrace, .eof] := by
  cases hopening : e.opening with
  | some o =>
    obtain ⟨c, hc, hclose⟩ := h.disabled (by simp [hopening])
    rw [hc] at hts
    obtain ⟨u, us, rfl, hu, -⟩ := hts.exists_cons
    simp [← kind_of_bare hu, hclose]
  | none =>
    obtain ⟨hclosing, hend⟩ := h.enabled hopening
    rw [hclosing] at hts
    obtain rfl := hts.eq_nil
    rw [List.nil_append, hnext]
    rcases hend hsemicolon with rfl | rfl <;> decide

/-- What stands behind the value of a declaration and the mark of importance. -/
theorem IsDeclaration.headKind_semicolon (h : IsDeclaration next e)
    (hts : Spells (e.semicolon.toList ++ e.closing.toList) ts) (hnext : headKind rest = next) :
    headKind (ts ++ rest) ∈ [TokenKind.semicolon, .closeComment, .closeBrace, .eof] := by
  cases hsemicolon : e.semicolon with
  | some c =>
    rw [hsemicolon] at hts
    obtain ⟨u, us, rfl, hu, -⟩ := hts.exists_cons
    simp [← kind_of_bare hu, h.semicolon c hsemicolon]
  | none =>
    rw [hsemicolon] at hts
    exact List.mem_cons_of_mem _ (h.headKind_closing hsemicolon hts hnext)

/-- In front of what stands behind it, the value of a declaration ends. -/
theorem IsDeclaration.stops (h : IsDeclaration next e) (hts : Spells (afterValue e) ts)
    (hnext : headKind rest = next) :
    Stops [.semicolon, .closeComment] true (ts ++ rest) ∧ headKind (ts ++ rest) ≠ .ident := by
  obtain ⟨us, vs, rfl, hus, hvs⟩ := hts.exists_append
  have hend := h.headKind_semicolon hvs hnext
  rw [List.append_assoc]
  cases hmark : e.important with
  | some m =>
    rw [hmark] at hus
    obtain ⟨t, u, rfl, ht, hu⟩ := (h.important m hmark).spells hus
    refine ⟨Or.inr (Or.inr (Or.inr ⟨rfl, by simp [marksImportant, ht, hu]⟩)), ?_⟩
    simp [kind_of_isDelim ht]
  | none =>
    rw [hmark] at hus
    obtain rfl := hus.eq_nil
    rw [List.nil_append]
    simp only [List.mem_cons, List.not_mem_nil, or_false] at hend
    rcases hend with hend | hend | hend | hend <;> simp [Stops, hend]

/-- From its tokens the mark of an important declaration is read, or nothing without one. -/
theorem important_gives {o : Option Node} (ho : ∀ m ∈ o, IsMark m)
    (hts : Spells ((o.map Node.tokens).getD []) ts) (hrest : headKind rest ≠ .delim) :
    Keeps (At d k (ts ++ rest)) important fun o' s =>
      At d k rest s ∧ o'.map Node.bare = o.map Node.bare := by
  refine Keeps.atImportant_at ?_
  cases o with
  | none =>
    obtain rfl := hts.eq_nil
    rw [List.nil_append, marksImportant_of_head hrest, if_neg Bool.false_ne_true]
    exact Keeps.ret fun s hs => ⟨hs, rfl⟩
  | some m =>
    obtain ⟨t, u, rfl, ht, hu⟩ := (ho m rfl).spells hts
    obtain ⟨hkind, mark, word, helements, -⟩ := ho m rfl
    have htokens : m.tokens = [mark, word] := by simp [← m.tokens_eq, helements]
    have hbare := hts.bare
    rw [Option.map_some, Option.getD_some, htokens] at hbare
    simp only [List.map_cons, List.map_nil, List.cons.injEq] at hbare
    have hukind : u.kind ≠ .eof := fun heof => by simp [isIdent, heof] at hu
    rw [if_pos (by simp [marksImportant, ht, hu])]
    refine Keeps.bump_at (by simp [kind_of_isDelim ht]) (Keeps.bump_at hukind ?_)
    refine Keeps.bind (node_at _ _) fun n => Keeps.ret fun s hn => ⟨hn.1, ?_⟩
    rw [Option.map_some, Option.map_some, n.bare_eq, m.bare_eq, hn.2.1, hn.2.2, hkind, helements]
    simp [hbare]

/-- A declaration ends where its tokens do. -/
theorem declarationEnd_gives (h : IsDeclaration next e) (hts : Spells e.closing.toList ts)
    (hnext : headKind rest = next) (hrest : rest ≠ []) :
    Tries (At d k (ts ++ rest)) (declarationEnd e.opening.isSome e.semicolon.isSome) (fun l s =>
      At d k rest s ∧ Element.bareAll l = Element.bareAll (Element.ofToken? e.closing))
      fun _ => False := by
  unfold declarationEnd
  cases hopening : e.opening with
  | some o =>
    obtain ⟨c, hc, hclose⟩ := h.disabled (by simp [hopening])
    rw [hc] at hts ⊢
    obtain ⟨u, us, rfl, hu, hus⟩ := hts.exists_cons
    obtain rfl := hus.eq_nil
    have hkind : u.kind = .closeComment := (kind_of_bare hu).symm.trans hclose
    rw [if_pos (by simp)]
    refine Tries.require_at (by decide) (fun _ => ?_) fun hne => absurd hkind hne
    exact Tries.ret fun s hs => ⟨hs, by simp [Element.ofToken?, hu]⟩
  | none =>
    obtain ⟨hclosing, hend⟩ := h.enabled hopening
    rw [hclosing] at hts ⊢
    obtain rfl := hts.eq_nil
    rw [if_neg (by simp)]
    cases hsemicolon : e.semicolon with
    | some c => exact Tries.ret fun s hs => ⟨hs, rfl⟩
    | none =>
      obtain ⟨t, us, rfl⟩ := List.exists_cons_of_ne_nil hrest
      have hkind : (decide (t.kind = .closeBrace) || decide (t.kind = .eof)) = true := by
        rcases hend hsemicolon with rfl | rfl <;> simp [show t.kind = _ from hnext]
      rw [if_neg (by simp)]
      refine Tries.peekKind_at (f := fun kind => if kind = .closeBrace || kind = .eof then
        pure [] else failure) ?_
      rw [hkind, if_pos rfl]
      exact Tries.ret fun s hs => ⟨hs, rfl⟩

/-- From its tokens a declaration is read again. -/
theorem declarationAfter_gives {opening : Option Token} (h : IsDeclaration next e)
    (hopening : opening.map Token.bare = e.opening.map Token.bare)
    (hts : Spells (behindOpening e) ts) (hnests : e.value.NestsWithin k)
    (hnext : headKind rest = next) (hrest : rest ≠ []) :
    Tries (At d k (ts ++ rest)) (declarationAfter opening) (fun m s =>
      At d k rest s ∧ m.bare = ⟨0, .declaration, default, Element.bareAll e.elements⟩)
      fun _ => False := by
  have hisSome : opening.isSome = e.opening.isSome := by
    rw [← Option.isSome_map (f := Token.bare), hopening, Option.isSome_map]
  obtain ⟨name, ts, rfl, hname, hts⟩ := hts.exists_cons
  obtain ⟨colon, ts, rfl, hcolon, hts⟩ := hts.exists_cons
  obtain ⟨vs, as, rfl, hvs, has⟩ := hts.exists_append
  obtain ⟨ms, bs, rfl, hms, hbs⟩ := has.exists_append
  obtain ⟨ss, cs, rfl, hss, hcs⟩ := hbs.exists_append
  have hnamekind : name.kind = .ident := (kind_of_bare hname).symm.trans h.name
  have hcolonkind : colon.kind = .colon := (kind_of_bare hcolon).symm.trans h.colon
  have hstops := h.stops has hnext
  have hsemicolon := h.headKind_semicolon hbs hnext
  refine Tries.require_at (by decide) (fun _ => ?_) fun hne => absurd hnamekind hne
  refine Tries.require_at (by decide) (fun _ => ?_) fun hne => absurd hcolonkind hne
  show Tries (At d k (vs ++ (ms ++ (ss ++ cs)) ++ rest)) _ _ _
  rw [List.append_assoc]
  refine Tries.call_seq (h.value.gives hvs hnests ?_ (by simp [hrest]) ?_ hstops.1) fun v hv => ?_
  · rw [headKind_append_eq, hnext, ← has.kindBefore]
  · rw [has.kindBefore, ← hnext, ← headKind_append_eq]
    exact hstops.2
  rw [List.append_assoc]
  refine Tries.call_seq (important_gives h.important hms ?_) fun mark hmark => ?_
  · intro hdelim
    rw [hdelim] at hsemicolon
    simp at hsemicolon
  rw [List.append_assoc]
  -- Behind the semicolon, if there is one, only the end is left.
  have hend : ∀ s' : Option Token, s'.map Token.bare = e.semicolon.map Token.bare →
      Tries (At d k (cs ++ rest)) (do
        let ending ← declarationEnd opening.isSome s'.isSome
        node .declaration (Element.ofToken? opening ++ .token name :: .token colon :: .node v ::
          Element.ofNode? mark ++ Element.ofToken? s' ++ ending))
        (fun m s => At d k rest s ∧ m.bare = ⟨0, .declaration, default, Element.bareAll e.elements⟩)
        fun _ => False := by
    intro s' hs'
    have hsome : s'.isSome = e.semicolon.isSome := by
      rw [← Option.isSome_map (f := Token.bare), hs', Option.isSome_map]
    rw [hisSome, hsome]
    refine Tries.seq (declarationEnd_gives h hcs hnext hrest) fun ending hending => ?_
    refine Tries.run ((node_at _ _).post fun m s hm => ⟨hm.1, ?_⟩)
    rw [m.bare_eq, hm.2.1, hm.2.2]
    simp [Declaration.elements, hopening, hname, hcolon, hv, hmark, hs', hending]
  cases hsome : e.semicolon with
  | none =>
    rw [hsome] at hss
    obtain rfl := hss.eq_nil
    have hclosing := h.headKind_closing hsome hcs hnext
    rw [List.nil_append]
    refine Tries.of_at fun u us hus _ => ?_
    rw [hus]
    refine Tries.eat_at (by decide) (fun hu => ?_) fun _ => ?_
    · rw [hus, headKind_cons, hu] at hclosing
      simp at hclosing
    · rw [← hus]
      exact hend none (by rw [hsome])
  | some c =>
    rw [hsome] at hss
    obtain ⟨u, us, rfl, hu, hus⟩ := hss.exists_cons
    obtain rfl := hus.eq_nil
    have hkind : u.kind = .semicolon := (kind_of_bare hu).symm.trans (h.semicolon c hsome)
    refine Tries.eat_at (by decide) (fun _ => ?_) fun hne => absurd hkind hne
    exact hend (some u) (by rw [hsome, Option.map_some, Option.map_some, hu])

end Reading

section Finding

/-- A mark of importance is found, or there is none. -/
theorem important_finds : Keeps (At d k ts) important fun o =>
    Found d k ts ((o.map Node.tokens).getD []) fun _ => ∀ m ∈ o, IsMark m := by
  refine Keeps.atImportant_at ?_
  match ts with
  | t :: u :: us =>
    cases hmark : marksImportant (t :: u :: us) with
    | false => exact Keeps.ret fun s hs => ⟨_, rfl, hs, by simp⟩
    | true =>
      rw [marksImportant, Bool.and_eq_true] at hmark
      have hu : u.kind ≠ .eof := fun heof => by simp [isIdent, heof] at hmark
      rw [if_pos rfl]
      refine Keeps.bump_at (by simp [kind_of_isDelim hmark.1]) (Keeps.bump_at hu ?_)
      refine Keeps.bind (node_at _ _) fun n => Keeps.ret ?_
      rintro s ⟨hs, hkind, helements⟩
      refine ⟨us, ?_, hs, ?_⟩
      · simp [← n.tokens_eq, helements]
      · rintro m ⟨⟩
        exact ⟨hkind, t, u, helements, hmark⟩
  | [t] => exact Keeps.ret fun s hs => ⟨_, rfl, hs, by simp⟩
  | [] => exact Keeps.ret fun s hs => ⟨_, rfl, hs, by simp⟩

/-- What a declaration ends with. -/
theorem declarationEnd_finds (disabled semicolon : Bool) :
    Tries (At d k ts) (declarationEnd disabled semicolon)
      (fun l => Found d k ts (Element.tokensOf l) fun us => ∃ closing, l = Element.ofToken? closing ∧
        (disabled = true → ∃ t ∈ closing, t.kind = .closeComment) ∧
        (disabled = false → closing = none ∧
          (semicolon = false → headKind us = .closeBrace ∨ headKind us = .eof)))
      fun _ => True := by
  unfold declarationEnd
  cases disabled with
  | true =>
    refine Tries.of_at fun t us hts _ => ?_
    subst hts
    refine Tries.require_at (by decide) (fun ht => ?_) fun _ _ _ => trivial
    exact Tries.ret fun s hs => ⟨us, rfl, hs, some t, rfl, fun _ => ⟨t, rfl, ht⟩, by simp⟩
  | false =>
    cases semicolon with
    | true => exact Tries.ret fun s hs => ⟨ts, rfl, hs, none, rfl, by simp⟩
    | false =>
      refine Tries.of_at fun t us hts _ => ?_
      subst hts
      refine Tries.peekKind_at (f := fun kind => if kind = .closeBrace || kind = .eof then
        pure [] else failure) ?_
      split
      next hend =>
        refine Tries.ret fun s hs => ⟨t :: us, rfl, hs, none, rfl, by simp, fun _ => ⟨rfl, fun _ => ?_⟩⟩
        simpa using hend
      next => exact Tries.fail fun _ _ => trivial

/-- A declaration that holds no error has the shape of one. -/
theorem declarationAfter_finds (opening : Option Token) :
    Tries (At d k ts) (declarationAfter opening) (fun n s => ∃ e : Declaration,
      n.kind = .declaration ∧ n.elements = e.elements ∧ e.opening = opening ∧
        Found d k ts (behindOpening e) (fun us =>
          n.containsError = false → IsDeclaration (headKind us) e) s)
      fun _ => True := by
  refine Tries.of_at fun name ts hts _ => ?_
  subst hts
  refine Tries.require_at (by decide) (fun hname => ?_) fun _ _ _ => trivial
  refine Tries.of_at fun colon ts hts _ => ?_
  subst hts
  refine Tries.require_at (by decide) (fun hcolon => ?_) fun _ _ _ => trivial
  refine Tries.call_found (values_finds _ _) fun v us hus hvalue => ?_
  refine Tries.call_found important_finds fun mark vs hvs hmark => ?_
  refine Tries.call_found (eat_finds (by decide)) fun semicolon ws hws hsemicolon => ?_
  refine Tries.found (declarationEnd_finds _ _) fun ending xs hxs hending => ?_
  obtain ⟨closing, rfl, hdisabled, henabled⟩ := hending
  refine Tries.run ((node_at _ _).post ?_)
  rintro n s ⟨hs, hkind, helements⟩
  rw [tokensOf_ofToken?] at hxs
  subst hus hvs hws hxs
  refine ⟨⟨opening, name, colon, v, mark, semicolon, closing⟩, hkind, ?_, rfl, xs, ?_, hs, ?_⟩
  · simp [helements, Declaration.elements]
  · simp [behindOpening, afterValue]
  · intro herror
    have hv := (Node.containsError_eq_false.mp herror).2 v (by simp [helements])
    have hshape := hvalue.2 hv
    rw [← List.append_assoc semicolon.toList, ← List.append_assoc, headKind_append_eq] at hshape
    refine ⟨hname, hcolon, hshape, hmark, hsemicolon.1, hdisabled, fun h => ?_⟩
    obtain ⟨hclosing, hend⟩ := henabled (by rw [show opening = none from h, Option.isSome_none])
    exact ⟨hclosing, fun hnone => hend (by rw [show semicolon = none from hnone, Option.isSome_none])⟩

end Finding

end CssTree.Syntax
