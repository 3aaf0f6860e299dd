import CssTree.Proofs.Edit.Strung

namespace CssTree

open CssTree.Frame

/-- Where an edit makes room for a text: behind which of the first lexemes of a node. A span that
starts there is taken for one behind the text, and is pushed. -/
inductive Mutation.MakesRoom (tree : Tree) : Mutation → Node → List Lexeme → Prop
  | item {m : Mutation} {list : Node} {listing : Listing} {index : Nat} {p : Production} {t : Text} :
      m.Inserts tree list index p t → list.listing? = some listing →
      MakesRoom tree m list (listing.ahead index)
  | content {m : Mutation} {n : Node} {p : Production} {t : Text} :
      m.Rereads tree n p t → MakesRoom tree m n []
  | mark {m : Mutation} {n : Node} {d : Declaration} : m = .setImportant n.id true →
      n ∈ tree.root.descendants → n.declaration? = some d → d.important = none →
      MakesRoom tree m n (Token.lexemesOf (d.opening.toList ++ [d.name, d.colon] ++ d.value.tokens))
  | opening {m : Mutation} {n : Node} {d : Declaration} : m = .setDisabled n.id true →
      n ∈ tree.root.descendants → n.declaration? = some d → d.opening = none →
      MakesRoom tree m n d.name.leading
  | closing {m : Mutation} {n : Node} {d : Declaration} {ts : List Token} {t : Token} :
      m = .setDisabled n.id true → n ∈ tree.root.descendants → n.declaration? = some d →
      d.opening = none → n.tokens = ts ++ [t] →
      MakesRoom tree m n (Token.lexemesOf ts ++ t.leading ++ [t.toLexeme])

/-- An edit that fits into `tree` and makes `tree'` of it: no span in front of a place where it makes
room starts there, the items of lists have tokens, and the text is intact afterwards. -/
structure Mutation.Fits (m : Mutation) (tree tree' : Tree) : Prop where
  clears : ∀ n ls, m.MakesRoom tree n ls → tree.Clears n ls
  filled : ∀ list ∈ tree.root.descendants, list.listing? ≠ none → ∀ n ∈ list.children, n.tokens ≠ []
  intact : tree'.Intact

namespace Node

variable {n : Node} {f : List Token → List Token} {p : Position}

theorem lexemesOf_regrouped (hf : Token.Regroups f) (n : Node) :
    Token.lexemesOf (n.mapTokens f).tokens = Token.lexemesOf n.tokens := by
  rw [tokens_mapTokens (by simpa using congrArg List.length (hf.kinds n.tokens)), hf.lexemes]

/-- Trivia that moves between the tokens of a node leaves everything in its place. -/
theorem strung_regrouped (hf : Token.Regroups f) (h : n.Strung p) :
    (n.mapTokens f).respan.Strung p := by
  refine strung_respan ?_ fun _ => ?_
  · rw [Token.Strung, lexemesOf_regrouped hf]
    exact h.tokens
  · rw [span_mapTokens, h.span]

/-- Where the name of a declaration is written that is not in a comment. -/
theorem Strung.name {d : Declaration} (h : n.Strung p) (hformed : n.Formed)
    (hd : n.declaration? = some d) (hopening : d.opening = none) :
    d.name.span.start = Lexeme.after p d.name.leading := by
  obtain ⟨rest, hcut, -⟩ := lexemesOf_openComment hformed hd hopening default
  have htokens := h.tokens
  rw [Token.Strung, hcut, Lexeme.strung_append] at htokens
  exact congrArg Span.start htokens.2.1

end Node

namespace Tree

variable {tree tree' : Tree} {C : List Frame} {n : Node} {d d' : Declaration} {ls : List Lexeme}

theorem Clears.of_root (h : tree.Clears n ls) (hroot : tree'.root = tree.root) : tree'.Clears n ls :=
  ⟨hroot ▸ h.around, h.ahead⟩

/-- Nothing in front of a place starts there if a lexeme that is not empty ends there. -/
theorem clears_of_last (hstrung : tree.root.Strung .origin) (hn : n ∈ tree.root.descendants)
    (hahead : ls <+: Token.lexemesOf n.tokens) (hlast : ∃ l ∈ ls.getLast?, l.text ≠ []) :
    tree.Clears n ls := by
  obtain ⟨l, hl, htext⟩ := hlast
  obtain ⟨xs, rfl⟩ := List.getLast?_eq_some_iff.mp hl
  obtain ⟨ys, hcut⟩ := hahead
  have hlt : ∀ {C}, n.Strung (startIn .origin C) →
      ∀ m ∈ xs ++ [l], m.span.start < Lexeme.after n.span.start (xs ++ [l]) := by
    intro C hwithin
    have hstart : startIn .origin C = n.span.start := (congrArg Span.start hwithin.span).symm
    have hall : Lexeme.Strung n.span.start ((xs ++ [l]) ++ ys) := hcut ▸ hstart ▸ hwithin.tokens
    exact (Lexeme.strung_append.mp hall).1.start_lt_after htext
  refine ⟨fun C hroot => ?_, ?_⟩
  · have hwithin : n.Strung (startIn .origin C) := (strung_plug.mp (hroot ▸ hstrung)).2
    exact (threads_of_strung hstrung hroot).clear_of_ahead hcut.symm (by simp) (hlt hwithin)
  · obtain ⟨C, -, hwithin⟩ := exists_threads hstrung hn
    exact hlt hwithin

/-- An edit fits where the lexemes in front of each place where it makes room end with one that is
not empty. -/
theorem fits_of_last {m : Mutation} (hstrung : tree.root.Strung .origin)
    (hlast : ∀ n ls, m.MakesRoom tree n ls → n ∈ tree.root.descendants ∧
      ls <+: Token.lexemesOf n.tokens ∧ ∃ l ∈ ls.getLast?, l.text ≠ [])
    (hfilled : ∀ list ∈ tree.root.descendants, list.listing?.isNone = true ∨
      ∀ n ∈ list.children, n.tokens ≠ [])
    (hintact : tree'.Intact) : m.Fits tree tree' where
  clears n ls hroom := by
    obtain ⟨hn, hahead, hfull⟩ := hlast n ls hroom
    exact clears_of_last hstrung hn hahead hfull
  filled list hlist hlisting := (hfilled list hlist).resolve_left (by simpa using hlisting)
  intact := hintact

/-- A token is not empty if it does not start where it ends. -/
theorem Clears.text_ne_nil {ts : List Token} {t : Token}
    (h : tree.Clears n (Token.lexemesOf ts ++ t.leading ++ [t.toLexeme]))
    (hn : n.Strung (startIn .origin C)) (htokens : n.tokens = ts ++ [t]) : t.text ≠ [] := by
  intro hempty
  have hcut : Token.lexemesOf n.tokens =
      (Token.lexemesOf ts ++ t.leading ++ [t.toLexeme]) ++ t.trailing := by
    rw [htokens, Token.lexemesOf_append]
    simp [Token.lexemes]
  have hall : Lexeme.Strung n.span.start (Token.lexemesOf n.tokens) := by
    rw [hn.span]
    exact hn.tokens
  rw [hcut, Lexeme.strung_append, Lexeme.strung_append] at hall
  have hlt := h.ahead t.toLexeme (by simp)
  rw [Lexeme.after_append, hall.1.2.1] at hlt
  have hsame : Lexeme.after (Lexeme.after n.span.start (Token.lexemesOf ts ++ t.leading))
      [t.toLexeme] = Lexeme.after n.span.start (Token.lexemesOf ts ++ t.leading) := by
    simp [hempty]
  rw [hsame] at hlt
  exact Position.not_lt_of_le (Position.le_refl _) hlt

/-- Wherever the comment around a declaration ends, it is taken away. -/
theorem Sound.strung_unwrapped (h : tree.Sound []) (hstrung : tree.root.Strung .origin)
    (hn : n ∈ tree.root.descendants) (hd : n.declaration? = some d) (hopening : d.opening ≠ none)
    (hd' : (tree.closingDropped n.id d).declaration n.id = .ok d') :
    (((tree.closingDropped n.id d).openingDropped n.id d').respan n.id).root.Strung .origin := by
  cases hclosing : d.closing with
  | some c => exact (h.exchanged_unwrapped hstrung hn hd hopening hclosing hd').strung
  | none =>
    have hsame : tree.closingDropped n.id d = tree := by rw [Tree.closingDropped, hclosing]
    rw [hsame] at hd' ⊢
    obtain rfl : d' = d :=
      Except.ok.inj (hd'.symm.trans (declaration_of_find? (h.find?_of_mem hn) hd))
    obtain ⟨o, ho⟩ := Option.ne_none_iff_exists'.mp hopening
    obtain ⟨C, hthreads, -⟩ := exists_threads hstrung hn
    obtain ⟨C', x, hdropped, -, hid, hne, -⟩ :=
      hthreads.openingDropped h.nodup (h.formed n hn) hd ho
    have hthreaded : (tree.openingDropped n.id d').Threaded n.id :=
      ⟨C', x, hdropped, hid, fun hnil => absurd hnil hne⟩
    exact hthreaded.strung ((h.openingDropped n.id d').alike (.respan _ _))

/-- An edit that fits leaves no gaps between the spans of a tree. -/
theorem Edited.strung {m : Mutation} {c : Change} (hedited : tree.Edited m tree' c)
    (h : tree.Sound []) (hproper : ∀ x ∈ tree.root.descendants, x.Proper)
    (hstrung : tree.root.Strung .origin) (hfits : m.Fits tree tree') :
    tree'.root.Strung .origin := by
  have hsound := hedited.sound h
  have hfilled : ∀ {list : Node} {listing : Listing} (pair : Node × Option Token),
      list ∈ tree.root.descendants → list.listing? = some listing → pair ∈ listing.items.pairs →
        pair.1.tokens ≠ [] := fun _ hlist hlisting hpair =>
    hfits.filled _ hlist (by simp [hlisting]) _
      ((h.formed _ hlist).mem_children_listing hlisting hpair)
  cases hedited with
  | @insertedBefore tree₁ list target fragment listing index p t hlist hlisting hget _ hreads herror
      hinserts =>
    obtain ⟨hread, hcomplete, hroot, -⟩ := h.reads hreads
    obtain ⟨htokens, -⟩ := h.text_of_reads hinserts.steps.2.1 hreads herror
    obtain ⟨hfragment, -⟩ := orderly_of_reads hreads fragment fragment.mem_descendants_self
    obtain ⟨front, separator, back, hpairs, hindex⟩ := Listing.exists_item hget
    have htarget : target.tokens ≠ [] :=
      hfilled (target, separator) hlist hlisting (by simp [hpairs])
    have hclears := (hfits.clears _ _ (.item hinserts hlisting)).of_root hroot
    exact (hread.threaded_insertedBefore (hroot ▸ hstrung) (hroot ▸ hlist) hlisting hpairs hindex
      htarget hfragment hcomplete htokens hclears hfits.intact.of_respan).strung hsound
  | @insertedAfter tree₁ list fragment listing p t hlist hlisting _ hreads herror hinserts =>
    obtain ⟨hread, hcomplete, hroot, -⟩ := h.reads hreads
    obtain ⟨htokens, -⟩ := h.text_of_reads hinserts.steps.2.1 hreads herror
    obtain ⟨hfragment, -⟩ := orderly_of_reads hreads fragment fragment.mem_descendants_self
    have hclears := (hfits.clears _ _ (.item hinserts hlisting)).of_root hroot
    exact (hread.threaded_insertedAfter (hroot ▸ hstrung) (hroot ▸ hproper) (hroot ▸ hlist) hlisting
      hfragment hcomplete htokens hclears hfits.intact.of_respan).strung hsound
  | @removedBefore list removed next listing index hlist hlisting hget hnext =>
    obtain ⟨front, comma, separator, back, hpairs, hindex⟩ := Listing.exists_next hget hnext
    have hremoved : removed.tokens ≠ [] :=
      hfilled (removed, comma) hlist hlisting (by simp [hpairs])
    have hnext' : next.tokens ≠ [] :=
      hfilled (next, separator) hlist hlisting (by simp [hpairs])
    exact (h.threaded_removedBefore hstrung hlist hlisting hpairs hindex hremoved hnext').strung
      hsound
  | @removedLast list removed listing index hlist hlisting hget hnext =>
    obtain ⟨front, separator, hpairs, hindex⟩ := Listing.exists_last hget hnext
    obtain rfl : separator = none := by
      have hends := (h.formed list hlist).endsSeparated_listing hlisting
      exact Punctuated.endsSeparated_eq_false.mp hends (removed, separator) (by simp [hpairs])
    exact (h.threaded_removedLast hstrung hlist hlisting hpairs hindex).strung hsound
  | @replaced tree₁ n fragment p t hn hrereads hreads =>
    obtain ⟨hread, hcomplete, hroot, -⟩ := h.reads hreads
    have hclears := (hfits.clears _ _ (.content hrereads)).of_root hroot
    exact hread.strung_replaced (hroot ▸ hstrung) (hroot ▸ hn) hcomplete hclears hfits.intact
  | @marked n d hn hd hnone hm =>
    obtain ⟨C, hthreads, hwithin⟩ := exists_threads hstrung hn
    obtain ⟨hahead, -⟩ := (hfits.clears _ _ (.mark hm hn hd hnone)).of_strung hwithin hthreads.root
      (hwithin.value_stop (h.formed n hn) hd)
    exact (h.exchanged_marked hstrung hn hd hnone hahead).strung
  | unmarked hn hd hmark => exact (h.exchanged_unmarked hstrung hn hd hmark).strung
  | @wrapped n d hn hd hnone hm =>
    obtain ⟨C, hthreads, hwithin⟩ := exists_threads hstrung hn
    obtain ⟨hahead, hclear⟩ := (hfits.clears _ _ (.opening hm hn hd hnone)).of_strung hwithin
      hthreads.root
      (hwithin.name (h.formed n hn) hd hnone)
    refine (h.exchanged_wrapped hstrung hthreads.root hd hnone ((hproper n hn).comment d hd hnone)
      hahead hclear fun t ht => ?_).strung
    obtain ⟨ts, htokens⟩ := List.getLast?_eq_some_iff.mp ht
    exact (hfits.clears _ _ (.closing hm hn hd hnone htokens)).text_ne_nil hwithin htokens
  | unwrapped hn hd hsome hd' _ => exact h.strung_unwrapped hstrung hn hd hsome hd'
  | regrouped hf _ => exact Node.strung_regrouped hf hstrung

end Tree

namespace Session

/-- A call that leaves every token where it is. -/
inductive Gentle : Call → Prop
  | trailingToLeading : Gentle (.edit .trailingToLeading)
  | leadingToTrailing : Gentle (.edit .leadingToTrailing)
  | observe : Gentle .observe
  | release : Gentle .release

/-- Calls that are gentle, or edits that fit wherever they succeed. -/
inductive Fitting : Session → List Call → Prop
  | nil {s : Session} : Fitting s []
  | gentle {s : Session} {c : Call} {calls : List Call} :
      Gentle c → Fitting (s.call c) calls → Fitting s (c :: calls)
  | edit {s : Session} {m : Mutation} {calls : List Call} :
      ((s.apply m).1.isOk = true → m.Fits s.tree (s.apply m).2.1.tree) →
      Fitting (s.call (.edit m)) calls → Fitting s (.edit m :: calls)

variable {s : Session} {c : Call} {calls : List Call}

theorem Fitting.of_gentle (h : ∀ c ∈ calls, Gentle c) : Fitting s calls := by
  induction calls generalizing s with
  | nil => exact .nil
  | cons c calls ih =>
    rw [List.forall_mem_cons] at h
    exact .gentle h.1 (ih h.2)

/-- A tree that is written without gaps, and cuts no line break. -/
def Strung (s : Session) : Prop := s.tree.root.Strung .origin ∧ Lexeme.Whole s.tree.lexemes

theorem strung_parse (p : Production) (config : Config) (t : Text) :
    Strung ⟨Tree.parse p config t, false⟩ := by
  obtain ⟨hlaid, hwhole⟩ := Tree.laid_parse p config t
  exact ⟨(Node.laid_iff_of_whole hwhole).mp hlaid, hwhole⟩

theorem strung_gentle (hc : Gentle c) (h : s.Strung) : (s.call c).Strung := by
  have hregrouped : ∀ {f : List Token → List Token}, Token.Regroups f →
      (s.tree.root.mapTokens f).respan.Strung .origin ∧
        Lexeme.Whole (Token.lexemesOf (s.tree.root.mapTokens f).respan.tokens) := fun hf =>
    ⟨Node.strung_regrouped hf h.1, by rw [Node.tokens_respan, Node.lexemesOf_regrouped hf]; exact h.2⟩
  cases hc with
  | trailingToLeading => exact hregrouped Token.regroups_trailingToLeading
  | leadingToTrailing => exact hregrouped Token.regroups_leadingToTrailing
  | observe => exact h
  | release => exact h

theorem strung_edit {m : Mutation} (hsound : s.tree.Sound [])
    (hproper : ∀ x ∈ s.tree.root.descendants, x.Proper) (h : s.Strung)
    (hfits : (s.apply m).1.isOk = true → m.Fits s.tree (s.apply m).2.1.tree) :
    (s.call (.edit m)).Strung := by
  rcases root_apply hsound m with hroot | ⟨hok, c, hedited⟩
  · show (s.apply m).2.1.tree.root.Strung .origin ∧
      Lexeme.Whole (Token.lexemesOf (s.apply m).2.1.tree.root.tokens)
    rw [hroot]
    exact h
  · exact ⟨hedited.strung hsound hproper h.1 (hfits hok), (hfits hok).intact.whole⟩

theorem strung_run (hfitting : Fitting s calls) (hsound : s.tree.Sound [])
    (hproper : ∀ x ∈ s.tree.root.descendants, x.Proper) (h : s.Strung) : (s.run calls).Strung := by
  induction hfitting with
  | nil => exact h
  | @gentle s c calls hc _ ih =>
    exact ih (sound_call hsound c) (proper_run hsound hproper [c]) (strung_gentle hc h)
  | @edit s m calls hfits _ ih =>
    exact ih (sound_call hsound (.edit m)) (proper_run hsound hproper [.edit m])
      (strung_edit hsound hproper h hfits)

/-- In every session the links between nodes are right. The spans are right as well as long as only
trivia was moved, and as long as every edit that succeeded fits. -/
theorem links_right (p : Production) (config : Config) (t : Text) (calls : List Call) :
    let tree := (Session.run ⟨Tree.parse p config t, false⟩ calls).tree
    tree.linkFaults = [] ∧ ((∀ c ∈ calls, Gentle c) → tree.Valid) ∧
      (Fitting ⟨Tree.parse p config t, false⟩ calls → tree.Valid) := by
  intro tree
  let start : Session := ⟨Tree.parse p config t, false⟩
  have hsound : start.tree.Sound [] := Tree.sound_parse p config t
  have hproper : ∀ x ∈ start.tree.root.descendants, x.Proper :=
    fun x hx => (orderly_parse p config t x hx).1
  have hstrung : start.Strung := strung_parse p config t
  have hlinks : tree.linkFaults = [] := (sound_run hsound calls).linked.linkFaults_eq_nil
  have hvalid : Fitting start calls → tree.Valid := fun hfitting => by
    obtain ⟨hroot, hwhole⟩ := strung_run hfitting hsound hproper hstrung
    exact ⟨Tree.violations_eq_nil ((Node.laid_iff_of_whole hwhole).mpr hroot) hwhole, hlinks⟩
  exact ⟨hlinks, fun hcalls => hvalid (.of_gentle hcalls), hvalid⟩

theorem links_right_moved :
    ((∀ c ∈ [Call.edit .leadingToTrailing], Gentle c) ∧
      (Session.run ⟨Tree.parse .styleSheet {} "a b{}".toList, false⟩
        [.edit .leadingToTrailing]).tree.Valid) ∧
    let start : Session := ⟨Tree.parse .styleSheet {} "a{b:c}".toList, false⟩
    let calls := [Call.edit (.setImportant 5 true), .edit (.appendDeclaration 7 "d: e".toList),
      .edit .leadingToTrailing]
    Fitting start calls ∧ (start.run calls).tree.render = "a{b:c !important; d: e;}".toList ∧
      (start.run calls).tree.Valid := by
  refine ⟨?_, ?_⟩
  · have hcalls : ∀ c ∈ [Call.edit .leadingToTrailing], Gentle c := by
      simpa using Gentle.leadingToTrailing
    exact ⟨hcalls, (links_right .styleSheet {} "a b{}".toList _).2.1 hcalls⟩
  intro start calls
  let s := (start.apply (.setImportant 5 true)).2.1
  have hmarked : (Mutation.setImportant 5 true).Fits start.tree s.tree := by
    have hplace : ∀ n ∈ start.tree.root.descendants, n.id = 5 → ∀ d ∈ n.declaration?,
        let ls := Token.lexemesOf (d.opening.toList ++ [d.name, d.colon] ++ d.value.tokens)
        ls <+: Token.lexemesOf n.tokens ∧ ∃ l ∈ ls.getLast?, l.text ≠ [] := by
      decide +kernel
    refine Tree.fits_of_last (strung_parse _ _ _).1 (fun n ls hroom => ?_) (by decide +kernel)
      ⟨by decide +kernel, by decide +kernel⟩
    cases hroom with
    | item hinserts => cases hinserts
    | content hrereads => cases hrereads
    | mark hm hn hd hnone =>
      obtain ⟨hid, -⟩ := Mutation.setImportant.inj hm
      exact ⟨hn, hplace n hn hid.symm _ hd⟩
    | opening hm => cases hm
    | closing hm => cases hm
  have happended : (Mutation.appendDeclaration 7 "d: e".toList).Fits s.tree
      (s.apply (.appendDeclaration 7 "d: e".toList)).2.1.tree := by
    have hstrung : s.Strung := strung_edit (Tree.sound_parse .styleSheet {} "a{b:c}".toList)
      (fun x hx => (orderly_parse _ _ _ x hx).1) (strung_parse _ _ _) fun _ => hmarked
    have hplace : ∀ list ∈ s.tree.root.descendants, list.kind = .declarationList →
        ∀ l ∈ list.listing?, let ls := l.ahead list.children.length
          ls <+: Token.lexemesOf list.tokens ∧ ∃ l ∈ ls.getLast?, l.text ≠ [] := by
      decide +kernel
    refine Tree.fits_of_last hstrung.1 (fun list ls hroom => ?_) (by decide +kernel)
      ⟨by decide +kernel, by decide +kernel⟩
    cases hroom with
    | item hinserts hlisting =>
      obtain ⟨hlist, -⟩ := hinserts.steps
      cases hinserts with
      | lastDeclaration hget hlist' =>
        exact ⟨hlist, hplace list hlist (Node.kind_of_declarationList hlist') _ hlisting⟩
    | content hrereads => cases hrereads
    | mark hm => cases hm
    | opening hm => cases hm
    | closing hm => cases hm
  have hfitting : Fitting start calls :=
    .edit (fun _ => hmarked) (.edit (fun _ => happended) (.gentle .leadingToTrailing .nil))
  exact ⟨hfitting, by decide +kernel, (links_right .styleSheet {} "a{b:c}".toList _).2.2 hfitting⟩

/-- Selectors that are no longer any stop with an empty token in front of the block. When the
declarations change, that token stays, but its span moves behind the new block. -/
theorem edits_leave_span_behind :
    let start : Session := ⟨Tree.parse .styleSheet {} "a{}".toList, false⟩
    let first := start.apply (.replaceText 2 "!".toList)
    let second := first.2.1.apply (.setDeclarations 4 "b:c".toList)
    first.1.isOk = true ∧ second.1.isOk = true ∧ first.2.1.tree.violations = [] ∧
      second.2.1.tree.violations ≠ [] := by
  decide +kernel

end Session

end CssTree
