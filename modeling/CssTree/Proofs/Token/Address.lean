import CssTree.Proofs.Token.Stretch

namespace CssTree

/-- In front of `r`, the text `s` is made of characters that satisfy `p` and of escapes. -/
inductive Spelled (p : Char → Bool) : (s r : Text) → Prop
  | nil {r : Text} : Spelled p [] r
  | char {c : Char} {s r : Text} : p c = true → c ≠ '\\' → Spelled p s r → Spelled p (c :: s) r
  | escape {e s r : Text} : startsEscape ('\\' :: (e ++ (s ++ r))) = true →
      escapeLength (e ++ (s ++ r)) = e.length → Spelled p s r → Spelled p ('\\' :: (e ++ s)) r

theorem unescapeFrom_skip (quote : Option Char) (n : Nat) (t : Text) :
    unescapeFrom quote n t = unescapeFrom quote 0 (t.drop n) := by
  induction t generalizing n with
  | nil => simp [unescapeFrom]
  | cons c cs ih =>
    cases n with
    | zero => rfl
    | succ n => exact ih n

theorem unescape_char {c : Char} (hc : c ≠ '\\') (t : Text) :
    unescape (c :: t) = c :: unescape t := by
  simp [unescape, unescapeFrom.eq_def none 0 (c :: t), hc]

/-- The character that an escape denotes, given the text behind its backslash. -/
def denoted : Text → Char
  | [] => replacement
  | c :: cs => if isHex c then charOfCodePoint (hexNumber ((c :: cs).take (hexLength (c :: cs)))) else c

theorem unescape_escape {t : Text} (h : startsEscape ('\\' :: t) = true) :
    unescape ('\\' :: t) = denoted t :: unescape (t.drop (escapeLength t)) := by
  cases t with
  | nil => cases h
  | cons c cs =>
    by_cases hhex : isHex c = true
    · simp [unescape, unescapeFrom, denoted, hhex, unescapeFrom_skip none (escapeLength _)]
    · simp [unescape, unescapeFrom, denoted, hhex, escapeLength]

theorem isHex_of_mem_take {t : Text} : ∀ c ∈ t.take (hexLength t), isHex c = true := by
  intro c hc
  have hrun : (t.take 6).take (hexLength t) = (t.take 6).takeWhile isHex := take_runLength _ _
  rw [List.take_take, Nat.min_eq_left (hexLength_le t)] at hrun
  rw [hrun] at hc
  exact List.mem_takeWhile_imp hc

theorem hexLength_pos {c : Char} (h : isHex c = true) (cs : Text) : 0 < hexLength (c :: cs) := by
  simp [hexLength, runLength, h]

theorem isNewline_of_mem_take {t : Text} : ∀ c ∈ t.take (newlineLength t), isNewline c = true := by
  match t with
  | [] => simp
  | [d] => by_cases hd : isNewline d = true <;> simp [newlineLength, hd]
  | d :: e :: ds =>
    rw [newlineLength_cons_cons]
    split
    next h =>
      obtain ⟨rfl, rfl⟩ := h
      simp [isNewline]
    next =>
      split
      next hd => simpa using hd
      next => simp

theorem isBlank_of_mem_take {t : Text} : ∀ c ∈ t.take (escapeBlankLength t), isBlank c = true := by
  cases t with
  | nil => simp
  | cons d ds =>
    rw [escapeBlankLength]
    split
    next => exact fun c hc => by simp [isBlank, isNewline_of_mem_take c hc]
    next =>
      split
      next hd => simpa [isBlank, or_assoc] using Or.inl hd
      next => simp

theorem not_isHex_of_isBlank {c : Char} (h : isBlank c = true) : isHex c = false := by
  simp only [isBlank, isNewline, Bool.or_eq_true, decide_eq_true_eq] at h
  rcases h with (rfl | rfl) | (rfl | rfl) | rfl <;> decide

/-- An escape is one hidden character or hexadecimal digits with a blank. -/
theorem escape_cases {e r : Text} (hstarts : startsEscape ('\\' :: (e ++ r)) = true)
    (hlength : escapeLength (e ++ r) = e.length) :
    (∃ c, e = [c] ∧ isHex c = false) ∨
      ∃ digits blank, e = digits ++ blank ∧ digits ≠ [] ∧ (∀ c ∈ digits, isHex c = true) ∧
        (∀ c ∈ blank, isBlank c = true) ∧ hexLength (digits ++ blank) = digits.length := by
  cases e with
  | nil =>
    cases r with
    | nil => cases hstarts
    | cons c cs => exact absurd hlength (Nat.ne_of_gt escapeLength_pos)
  | cons c cs =>
    by_cases hhex : isHex c = true
    · right
      have hlength' : escapeLength (c :: cs) = (c :: cs).length :=
        (escapeLength_prompt (c :: cs) r (Nat.le_of_eq hlength)).trans hlength
      rw [escapeLength, if_pos hhex] at hlength'
      refine ⟨(c :: cs).take (hexLength (c :: cs)), (c :: cs).drop (hexLength (c :: cs)),
        (List.take_append_drop _ _).symm, ?_, isHex_of_mem_take, fun d hd => ?_, ?_⟩
      · rw [← List.length_pos_iff, List.length_take]
        have hpos := hexLength_pos hhex cs
        rw [List.length_cons]
        omega
      · refine isBlank_of_mem_take (t := (c :: cs).drop (hexLength (c :: cs))) d ?_
        rwa [List.take_of_length_le]
        rw [List.length_drop]
        omega
      · rw [List.take_append_drop, List.length_take_of_le]
        omega
    · left
      rw [List.cons_append, escapeLength, if_neg hhex, List.length_cons] at hlength
      exact ⟨c, by rw [List.length_eq_zero_iff.mp (by omega : cs.length = 0)], by simpa using hhex⟩

theorem denoted_append {e r : Text} (hne : e ≠ []) (h : escapeLength (e ++ r) = e.length) :
    denoted (e ++ r) = denoted e := by
  obtain ⟨c, cs, rfl⟩ := List.exists_cons_of_ne_nil hne
  by_cases hhex : isHex c = true
  · have hle : hexLength (c :: cs ++ r) ≤ (c :: cs).length := by
      rw [← h, List.cons_append, escapeLength, if_pos hhex]
      omega
    have hsame : hexLength (c :: cs) = hexLength (c :: cs ++ r) := hexLength_prompt (c :: cs) r hle
    have htake : (c :: cs ++ r).take (hexLength (c :: cs ++ r)) =
        (c :: cs).take (hexLength (c :: cs ++ r)) := List.take_append_of_le_length hle
    rw [← hsame, List.cons_append] at htake
    rw [List.cons_append] at hsame
    rw [List.cons_append, denoted, denoted, if_pos hhex, if_pos hhex, ← hsame, htake]
  · rw [List.cons_append, denoted, denoted, if_neg hhex, if_neg hhex]

theorem escape_ne_nil {e r : Text} (hstarts : startsEscape ('\\' :: (e ++ r)) = true)
    (hlength : escapeLength (e ++ r) = e.length) : e ≠ [] := by
  rcases escape_cases hstarts hlength with ⟨c, rfl, -⟩ | ⟨digits, blank, rfl, hne, -⟩ <;> simp_all

/-- What stands behind an escape does not matter to it. -/
theorem escape_left {e r u : Text} (hstarts : startsEscape ('\\' :: (e ++ (r ++ u))) = true)
    (hlength : escapeLength (e ++ (r ++ u)) = e.length) :
    startsEscape ('\\' :: (e ++ r)) = true ∧ escapeLength (e ++ r) = e.length := by
  have hne := escape_ne_nil hstarts hlength
  rw [← List.append_assoc] at hstarts hlength
  have hsame := escapeLength_prompt (e ++ r) u (by
    change escapeLength (e ++ r ++ u) ≤ _
    rw [hlength, List.length_append]
    omega)
  exact ⟨startsEscape_of_append (by simp [hne]) hstarts, hsame.trans hlength⟩

theorem unescape_escape_append {e r : Text} (hstarts : startsEscape ('\\' :: (e ++ r)) = true)
    (hlength : escapeLength (e ++ r) = e.length) :
    unescape ('\\' :: (e ++ r)) = denoted e :: unescape r := by
  rw [unescape_escape hstarts, hlength, List.drop_left,
    denoted_append (escape_ne_nil hstarts hlength) hlength]

/-- The digits of an escape denote the same without the blank behind them. -/
theorem unescape_digits {digits blank : Text} (hne : digits ≠ [])
    (hdigits : ∀ c ∈ digits, isHex c = true)
    (hlength : hexLength (digits ++ blank) = digits.length) :
    unescape ('\\' :: digits) = [denoted (digits ++ blank)] := by
  obtain ⟨d, ds, rfl⟩ := List.exists_cons_of_ne_nil hne
  have hd : isHex d = true := hdigits d (List.mem_cons_self ..)
  have hhex : hexLength (d :: ds) = (d :: ds).length :=
    (hexLength_prompt (d :: ds) blank (Nat.le_of_eq hlength)).trans hlength
  have hescape : escapeLength (d :: ds) = (d :: ds).length := by
    rw [escapeLength, if_pos hd, hhex, List.drop_length]
    rfl
  have hstarts : startsEscape ('\\' :: d :: ds) = true := by
    have hnewline : isNewline d = false := by
      by_contra hnewline
      rw [not_isHex_of_isBlank (by simp [isBlank, hnewline])] at hd
      cases hd
    simp [startsEscape, hnewline]
  have htake : (d :: ds ++ blank).take (hexLength (d :: ds ++ blank)) = d :: ds := by
    rw [hlength, List.take_left]
  have hdenoted : denoted (d :: ds ++ blank) = denoted (d :: ds) := by
    rw [List.cons_append] at htake ⊢
    rw [denoted, denoted, if_pos hd, if_pos hd, htake, hhex, List.take_length]
  rw [unescape_escape hstarts, hescape, List.drop_length, hdenoted]
  rfl

namespace Spelled

variable {p : Char → Bool} {s r u : Text}

theorem left (h : Spelled p s (r ++ u)) : Spelled p s r := by
  generalize hr : r ++ u = v at h
  induction h with
  | nil => exact .nil
  | char hp hc _ ih => exact .char hp hc (ih hr)
  | @escape e s v hstarts hlength _ ih =>
    subst hr
    rw [← List.append_assoc s] at hstarts hlength
    obtain ⟨hstarts', hlength'⟩ := escape_left hstarts hlength
    exact .escape hstarts' hlength' (ih rfl)

theorem unescape_append (h : Spelled p s r) : unescape (s ++ r) = unescape s ++ unescape r := by
  induction h with
  | nil => rfl
  | char hp hc _ ih => rw [List.cons_append, unescape_char hc, unescape_char hc, ih, List.cons_append]
  | @escape e s r hstarts hlength _ ih =>
    obtain ⟨hstarts', hlength'⟩ := escape_left hstarts hlength
    rw [List.cons_append, List.append_assoc, unescape_escape_append hstarts hlength, ih,
      unescape_escape_append hstarts' hlength', List.cons_append]

/-- A character that no escape is made of is denoted wherever it stands. -/
theorem mem_unescape {c : Char} (hp : p c = false) (hc : c ≠ '\\') (hhex : isHex c = false)
    (hblank : isBlank c = false) (h : Spelled p s r) (hmem : c ∈ s) : c ∈ unescape s := by
  induction h with
  | nil => cases hmem
  | @char d s r hd hd' _ ih =>
    rw [unescape_char hd']
    rcases List.mem_cons.mp hmem with rfl | hmem
    · rw [hp] at hd
      cases hd
    · exact List.mem_cons_of_mem _ (ih hmem)
  | @escape e s r hstarts hlength _ ih =>
    obtain ⟨hstarts', hlength'⟩ := escape_left hstarts hlength
    rw [unescape_escape_append hstarts' hlength']
    rcases List.mem_append.mp (List.mem_of_ne_of_mem hc hmem) with hmem | hmem
    · rcases escape_cases hstarts hlength with ⟨d, rfl, hd⟩ | ⟨digits, blank, rfl, -, hdigits, hblanks, -⟩
      · obtain rfl := List.mem_singleton.mp hmem
        simp [denoted, hd]
      · rcases List.mem_append.mp hmem with hmem | hmem
        · rw [hdigits c hmem] at hhex
          cases hhex
        · rw [hblanks c hmem] at hblank
          cases hblank
    · exact List.mem_cons_of_mem _ (ih hmem)

/-- The last character or escape. -/
theorem last (h : Spelled p s r) : s = [] ∨
    (∃ front c, s = front ++ [c] ∧ Spelled p front (c :: r) ∧ p c = true) ∨
      ∃ front e, s = front ++ '\\' :: e ∧ Spelled p front ('\\' :: (e ++ r)) ∧
        startsEscape ('\\' :: (e ++ r)) = true ∧ escapeLength (e ++ r) = e.length := by
  induction h with
  | nil => exact Or.inl rfl
  | @char c s r hp hc hs ih =>
    rcases ih with rfl | ⟨front, d, rfl, hfront, hd⟩ | ⟨front, e, rfl, hfront, hstarts, hlength⟩
    · exact Or.inr (Or.inl ⟨[], c, rfl, .nil, hp⟩)
    · exact Or.inr (Or.inl ⟨c :: front, d, rfl, .char hp hc hfront, hd⟩)
    · exact Or.inr (Or.inr ⟨c :: front, e, rfl, .char hp hc hfront, hstarts, hlength⟩)
  | @escape e s r hstarts hlength hs ih =>
    rcases ih with rfl | ⟨front, d, rfl, hfront, hd⟩ | ⟨front, e', rfl, hfront, hstarts', hlength'⟩
    · exact Or.inr (Or.inr ⟨[], e, by simp, .nil, by simpa using hstarts, by simpa using hlength⟩)
    · refine Or.inr (Or.inl ⟨'\\' :: (e ++ front), d, by simp, .escape ?_ ?_ hfront, hd⟩)
      · simpa using hstarts
      · simpa using hlength
    · refine Or.inr (Or.inr ⟨'\\' :: (e ++ front), e', by simp, .escape ?_ ?_ hfront, hstarts', hlength'⟩)
      · simpa using hstarts
      · simpa using hlength

end Spelled

theorem nameLengthFrom_skip {n : Nat} {t : Text} (h : n ≤ t.length) :
    nameLengthFrom n t = n + nameLength (t.drop n) := by
  induction t generalizing n with
  | nil =>
    obtain rfl := Nat.le_zero.mp h
    rfl
  | cons c cs ih =>
    cases n with
    | zero => simp [nameLength]
    | succ n =>
      rw [nameLengthFrom, ih (Nat.le_of_succ_le_succ h), List.drop_succ_cons]
      omega

theorem spelled_name (t : Text) :
    Spelled isNameChar (t.take (nameLength t)) (t.drop (nameLength t)) := by
  induction hn : t.length using Nat.strongRecOn generalizing t with
  | ind n ih =>
    subst hn
    match t with
    | [] => exact .nil
    | c :: cs =>
      by_cases hc : isNameChar c = true
      · rw [nameLength_cons hc]
        refine .char hc ?_ (ih _ (by simp) cs rfl)
        rintro rfl
        cases hc
      by_cases hstarts : startsEscape (c :: cs) = true
      · obtain rfl : c = '\\' := (startsEscape_cons hstarts).1
        have hle := escapeLength_le cs
        have hlength : nameLength ('\\' :: cs) =
            escapeLength cs + nameLength (cs.drop (escapeLength cs)) + 1 := by
          rw [nameLength, nameLengthFrom, if_neg hc, if_pos hstarts, nameLengthFrom_skip hle]
        have hrest := ih (cs.drop (escapeLength cs)).length
          (by rw [List.length_drop, List.length_cons]; omega) _ rfl
        rw [hlength, List.take_succ_cons, List.take_add, List.drop_succ_cons, ← List.drop_drop]
        refine .escape ?_ ?_ hrest
        · rwa [List.take_append_drop, List.take_append_drop]
        · rw [List.take_append_drop, List.take_append_drop, List.length_take_of_le hle]
      · rw [nameLength, nameLengthFrom, if_neg hc, if_neg hstarts]
        exact .nil

/-- A character that stands for itself in an address. -/
def isAddressChar (c : Char) : Bool :=
  c ≠ ')' && !isBlank c && !(c = '"' || c = '\'' || c = '(' || isNonPrintable c)

theorem urlTailFrom_skip {n : Nat} {t : Text} (h : n ≤ t.length) :
    urlTailFrom n t = (urlTailFrom 0 (t.drop n)).map id (n + ·) := by
  induction t generalizing n with
  | nil =>
    obtain rfl := Nat.le_zero.mp h
    rfl
  | cons c cs ih =>
    cases n with
    | zero =>
      rw [List.drop_zero]
      exact Prod.ext rfl (Nat.zero_add _).symm
    | succ n =>
      rw [urlTailFrom, ih (Nat.le_of_succ_le_succ h), List.drop_succ_cons]
      refine Prod.ext rfl ?_
      simp only [Prod.map_snd]
      omega

/-- An address taken apart. -/
structure Address where
  name : Text
  /-- Blanks in front of the content. -/
  blanks : Text
  content : Text
  /-- Blanks behind the content. -/
  gap : Text
  /-- The closing parenthesis. -/
  close : Text

/-- The content of an address with what ends it is found in front of `rest`. -/
structure Address.Ended (content gap close rest : Text) : Prop where
  content : Spelled isAddressChar content (gap ++ (close ++ rest))
  gap : ∀ c ∈ gap, isBlank c = true
  close : close = [')'] ∨ close = [] ∧ rest = []

theorem length_take_blanks (t : Text) : (t.take (blankLength t)).length = blankLength t :=
  List.length_take_of_le (runLength_le isBlank t)

theorem isBlank_take_blanks {t : Text} : ∀ c ∈ t.take (blankLength t), isBlank c = true := by
  intro c hc
  rw [blankLength, take_runLength] at hc
  exact List.mem_takeWhile_imp hc

theorem urlEnd_url {t : Text} (h : (urlEnd t).1 = .url) :
    ∃ close rest, t = close ++ rest ∧ (urlEnd t).2 = close.length ∧
      (close = [')'] ∨ close = [] ∧ rest = []) := by
  cases t with
  | nil => exact ⟨[], [], rfl, rfl, Or.inr ⟨rfl, rfl⟩⟩
  | cons c cs =>
    rw [urlEnd] at h ⊢
    by_cases hc : c = ')'
    · subst hc
      exact ⟨[')'], cs, rfl, rfl, Or.inl rfl⟩
    · rw [if_neg hc] at h
      cases h

theorem urlTailFrom_url {t : Text} (h : (urlTailFrom 0 t).1 = .url) :
    ∃ content gap close rest, t = content ++ (gap ++ (close ++ rest)) ∧
      (urlTailFrom 0 t).2 = content.length + gap.length + close.length ∧
        Address.Ended content gap close rest := by
  induction hn : t.length using Nat.strongRecOn generalizing t with
  | ind n ih =>
    subst hn
    match t with
    | [] => exact ⟨[], [], [], [], rfl, rfl, .nil, by simp, Or.inr ⟨rfl, rfl⟩⟩
    | c :: cs =>
      rw [urlTailFrom] at h ⊢
      by_cases hclose : c = ')'
      · subst hclose
        exact ⟨[], [], [')'], cs, rfl, rfl, .nil, by simp, Or.inl rfl⟩
      rw [if_neg hclose] at h ⊢
      by_cases hblank : isBlank c = true
      · rw [if_pos hblank] at h ⊢
        dsimp only at h ⊢
        obtain ⟨close, rest, hrest, hlength, hend⟩ := urlEnd_url (by simpa using h)
        refine ⟨[], (c :: cs).take (blankLength (c :: cs)), close, rest, ?_, ?_, .nil,
          isBlank_take_blanks, hend⟩
        · rw [← hrest, List.nil_append, List.take_append_drop]
        · rw [Prod.map_snd, hlength, length_take_blanks, List.length_nil, Nat.zero_add, Nat.add_comm]
      rw [if_neg hblank] at h ⊢
      by_cases hbad : (c = '"' || c = '\'' || c = '(' || isNonPrintable c) = true
      · rw [if_pos hbad] at h
        cases h
      rw [if_neg hbad] at h ⊢
      by_cases hslash : c = '\\'
      · subst hslash
        rw [if_pos rfl] at h ⊢
        by_cases hstarts : startsEscape ('\\' :: cs) = true
        · have hle := escapeLength_le cs
          rw [if_pos hstarts, urlTailFrom_skip hle] at h ⊢
          obtain ⟨content, gap, close, rest, hrest, hlength, hended⟩ :=
            ih (cs.drop (escapeLength cs)).length
              (by rw [List.length_drop, List.length_cons]; omega) (by simpa using h) rfl
          have htext : cs = cs.take (escapeLength cs) ++ (content ++ (gap ++ (close ++ rest))) := by
            rw [← hrest, List.take_append_drop]
          refine ⟨'\\' :: (cs.take (escapeLength cs) ++ content), gap, close, rest, ?_, ?_,
            .escape ?_ ?_ hended.content, hended.gap, hended.close⟩
          · rw [List.cons_append, List.append_assoc, ← htext]
          · simp only [Prod.map_snd, hlength, List.length_cons, List.length_append,
              List.length_take_of_le hle]
            omega
          · rwa [← htext]
          · rw [← htext, List.length_take_of_le hle]
        · rw [if_neg hstarts] at h
          cases h
      · rw [if_neg hslash] at h ⊢
        obtain ⟨content, gap, close, rest, hrest, hlength, hended⟩ :=
          ih cs.length (by simp) (by simpa using h) rfl
        refine ⟨c :: content, gap, close, rest, by rw [List.cons_append, ← hrest], ?_,
          .char ?_ hslash hended.content, hended.gap, hended.close⟩
        · simp only [Prod.map_snd, hlength, List.length_cons]
          omega
        · simp [isAddressChar, hclose, hblank, hbad]

theorem urlTail_url {t : Text} (h : (urlTail t).1 = .url) :
    ∃ blanks content gap close rest, t = blanks ++ (content ++ (gap ++ (close ++ rest))) ∧
      (urlTail t).2 = blanks.length + content.length + gap.length + close.length ∧
        (∀ c ∈ blanks, isBlank c = true) ∧ Address.Ended content gap close rest := by
  have hkind : (urlTailFrom 0 (t.drop (blankLength t))).1 = .url := h
  obtain ⟨content, gap, close, rest, hrest, hlength, hended⟩ := urlTailFrom_url hkind
  refine ⟨t.take (blankLength t), content, gap, close, rest, ?_, ?_, isBlank_take_blanks, hended⟩
  · rw [← hrest, List.take_append_drop]
  · simp only [urlTail, Prod.map_snd, hlength, length_take_blanks]
    omega

theorem openedLexeme_url {name t : Text} (h : (openedLexeme name t).1 = .url) :
    ∃ body, t = '(' :: body ∧ SameName (unescape name) ['u', 'r', 'l'] ∧ (urlTail body).1 = .url ∧
      (openedLexeme name t).2 = (urlTail body).2 + 1 := by
  unfold openedLexeme at h ⊢
  split at h
  next body =>
    split at h
    next hname =>
      refine ⟨body, rfl, hname.1, by simpa using h, ?_⟩
      simp only [if_pos hname, Prod.map_snd]
    next => cases h
  next => cases h

namespace Address

/-- The text of an address. -/
def text (a : Address) : Text := a.name ++ '(' :: (a.blanks ++ (a.content ++ (a.gap ++ a.close)))

/-- The parts are those that the scanner finds in front of `rest`. -/
structure Scanned (a : Address) (rest : Text) : Prop where
  name : SameName (unescape a.name) ['u', 'r', 'l']
  plain : '(' ∉ a.name
  blanks : ∀ c ∈ a.blanks, isBlank c = true
  ended : Ended a.content a.gap a.close rest

end Address

/-- No parenthesis is hidden in a name that denotes letters only. -/
theorem not_mem_name {t : Text} (h : SameName (unescape (t.take (nameLength t))) ['u', 'r', 'l']) :
    '(' ∉ t.take (nameLength t) := by
  intro hmem
  have hdenoted := (spelled_name t).mem_unescape (c := '(') (by decide) (by decide) (by decide)
    (by decide) hmem
  have hlower := List.mem_map_of_mem (f := Char.toLower) hdenoted
  rw [SameName, lowerCase] at h
  rw [h] at hlower
  exact absurd hlower (by decide)

theorem nameLexeme_url {t : Text} (h : (nameLexeme t).1 = .url) :
    ∃ (a : Address) (rest : Text), t = a.text ++ rest ∧ (nameLexeme t).2 = a.text.length ∧
      a.Scanned rest := by
  cases hcodePoints : codePointsLength? t with
  | some n =>
    rw [nameLexeme, hcodePoints] at h
    cases h
  | none =>
    rw [nameLexeme_of_none hcodePoints] at h ⊢
    obtain ⟨body, hbody, hname, hkind, hlength⟩ := openedLexeme_url (by simpa using h)
    obtain ⟨blanks, content, gap, close, rest, rfl, hlength', hblanks, hended⟩ := urlTail_url hkind
    have hsplit := List.take_append_drop (nameLength t) t
    rw [hbody] at hsplit
    have htake : (t.take (nameLength t)).length = nameLength t :=
      List.length_take_of_le (nameLengthFrom_le 0 t)
    refine ⟨⟨t.take (nameLength t), blanks, content, gap, close⟩, rest, ?_, ?_, hname,
      not_mem_name hname, hblanks, hended⟩
    · rw [Address.text]
      simpa using hsplit.symm
    · simp only [Prod.map_snd, hlength, hlength', Address.text, List.length_append,
        List.length_cons, htake]
      omega

theorem stringTailFrom_ne_url (quote : Char) (skip : Nat) (t : Text) :
    (stringTailFrom quote skip t).1 ≠ .url := by
  fun_induction stringTailFrom quote skip t <;> simp_all

theorem scannedLexeme_url {c : Char} {cs : Text} (h : (scannedLexeme c cs).1 = .url) :
    scannedLexeme c cs = nameLexeme (c :: cs) := by
  unfold scannedLexeme at h ⊢
  split at h
  next => cases h
  next hblank =>
    split at h
    next => exact absurd h (stringTailFrom_ne_url c 0 cs)
    next hquote =>
      split at h
      next =>
        unfold numericLexeme at h
        dsimp only at h
        split at h
        next => cases h
        next => split at h <;> cases h
      next hnumber =>
        split at h
        next hname => rw [if_neg hblank, if_neg hquote, if_neg hnumber, if_pos hname]
        next =>
          split at h
          next => cases h
          next => split at h <;> cases h

/-- Only a name starts an address. -/
theorem firstLexeme_url {t : Text} (h : (firstLexeme t).1 = .url) :
    firstLexeme t = nameLexeme t := by
  have hpunctuation : ∀ c, punctuation? c ≠ some .url := by
    intro c hc
    unfold punctuation? at hc
    split at hc <;> cases hc
  have hdigraph : ∀ c d, digraph? c d ≠ some .url := by
    intro c d hd
    unfold digraph? at hd
    split at hd <;> cases hd
  match t with
  | [] => cases h
  | [c] =>
    rw [firstLexeme] at h ⊢
    cases hc : punctuation? c with
    | some kind =>
      rw [hc] at h
      exact absurd (hc.trans (congrArg some h)) (hpunctuation c)
    | none =>
      rw [hc] at h
      exact scannedLexeme_url h
  | c :: d :: cs =>
    rw [firstLexeme_cons_cons] at h ⊢
    split at h
    next => cases h
    next hcomment =>
      rw [if_neg hcomment]
      split at h
      next kind hc => exact absurd (hc.trans (congrArg some h)) (hpunctuation c)
      next kind _ hd => exact absurd (hd.trans (congrArg some h)) (hdigraph c d)
      next hc hd => exact scannedLexeme_url h

/-- The scanner finds the parts of every address. -/
theorem FirstPiece.address {x rest : Text} (h : FirstPiece (.url, x) (x ++ rest)) :
    ∃ a : Address, x = a.text ∧ a.Scanned rest := by
  obtain ⟨-, hkind, hlength, -⟩ := h
  have hfirst := firstLexeme_url hkind
  rw [hfirst] at hkind hlength
  obtain ⟨a, rest', htext, hsize, hscanned⟩ := nameLexeme_url hkind
  have hsame : x.length = a.text.length := by
    rw [hsize] at hlength
    rw [← hlength, Nat.max_eq_right]
    simp only [Address.text, List.length_append, List.length_cons]
    omega
  obtain ⟨rfl, rfl⟩ := List.append_inj htext hsame
  exact ⟨a, rfl, hscanned⟩

theorem trimBlanks_around {b s g : Text} (hb : ∀ c ∈ b, isBlank c = true)
    (hg : ∀ c ∈ g, isBlank c = true) (hfirst : ∀ c ∈ s.head?, isBlank c = false)
    (hlast : ∀ c ∈ s.getLast?, isBlank c = false) : trimBlanks (b ++ (s ++ g)) = s := by
  have hreverse : ∀ c ∈ g.reverse, isBlank c = true := fun c hc => hg c (List.mem_reverse.mp hc)
  rw [trimBlanks, List.dropWhile_append_of_pos hb]
  rcases List.eq_nil_or_concat s with rfl | ⟨xs, d, rfl⟩
  · rw [List.nil_append, List.dropWhile_eq_nil_iff.mpr hg]
    rfl
  · rw [List.concat_eq_append] at hfirst hlast ⊢
    have hhead : ((xs ++ [d]) ++ g).dropWhile isBlank = (xs ++ [d]) ++ g := by
      obtain ⟨c, cs, hcons⟩ := List.exists_cons_of_ne_nil (l := xs ++ [d]) (by simp)
      have hc : isBlank c = false := hfirst c (by simp [hcons])
      rw [hcons, List.cons_append, List.dropWhile_cons_of_neg (by simp [hc])]
    have hd : isBlank d = false := hlast d (by simp)
    rw [hhead, List.reverse_append, List.dropWhile_append_of_pos hreverse, List.reverse_append,
      List.reverse_singleton, List.singleton_append, List.dropWhile_cons_of_neg (by simp [hd])]
    simp

theorem Spelled.head_not_blank {s r : Text} (h : Spelled isAddressChar s r) :
    ∀ c ∈ s.head?, isBlank c = false := by
  cases h with
  | nil => simp
  | char hc => 
    simp [isAddressChar] at hc
    simpa using hc.1.2
  | escape => simp [isBlank, isNewline]

namespace Address

/-- A backslash at the end of the content hides `c`, which is taken away all the same. -/
def Hides (a : Address) (c : Char) : Prop :=
  isBlank c = true ∨ c = ')' ∧ a.gap ++ a.close = []

variable {a : Address} {rest front : Text} {c : Char}

/-- The text of an address behind its name, without a parenthesis at the end. -/
def body (a : Address) : Text :=
  let body := a.blanks ++ (a.content ++ (a.gap ++ a.close))
  if body.getLast? = some ')' then body.dropLast else body

theorem unescapeUrl_text (h : '(' ∉ a.name) : unescapeUrl a.text = unescape (trimBlanks a.body) := by
  have hname : ∀ c ∈ a.name, decide (c ≠ '(') = true := by
    intro c hc
    rw [decide_eq_true_eq]
    rintro rfl
    exact h hc
  rw [unescapeUrl, text, List.dropWhile_append_of_pos hname, List.dropWhile_cons_of_neg (by simp)]
  rfl

theorem not_blank_close : isBlank ')' = false := by decide

/-- Where the text does not end with a hidden parenthesis, nothing but the closing one is taken away
from its end. -/
theorem Scanned.body_eq (h : a.Scanned rest)
    (hlast : a.gap ++ a.close = [] → a.content.getLast? ≠ some ')') :
    a.body = a.blanks ++ (a.content ++ a.gap) := by
  rw [body]
  rcases h.ended.close with hclose | ⟨hclose, -⟩
  · have hsplit : a.blanks ++ (a.content ++ (a.gap ++ [')'])) =
        (a.blanks ++ (a.content ++ a.gap)) ++ [')'] := by simp
    simp only [hclose, hsplit, List.getLast?_concat, List.dropLast_concat, if_true]
  · rw [hclose, List.append_nil] at hlast ⊢
    refine if_neg fun hget => ?_
    have hblank : ∀ t : Text, (∀ c ∈ t, isBlank c = true) → t.getLast? ≠ some ')' := by
      intro t ht hclose
      have hmem := ht _ (List.mem_of_getLast? hclose)
      rw [not_blank_close] at hmem
      cases hmem
    rw [List.getLast?_append, List.getLast?_append] at hget
    cases hgap : a.gap.getLast? with
    | some d =>
      rw [hgap] at hget
      exact hblank _ h.ended.gap (hgap.trans hget)
    | none =>
      rw [hgap, Option.none_or] at hget
      cases hcontent : a.content.getLast? with
      | some d =>
        rw [hcontent] at hget
        exact hlast (List.getLast?_eq_none_iff.mp hgap) (hcontent.trans hget)
      | none =>
        rw [hcontent, Option.none_or] at hget
        exact hblank _ h.blanks hget

/-- The text of the content that is decoded where nothing hidden is taken away from its end. -/
theorem Scanned.unescapeUrl_of {s blank : Text} (h : a.Scanned rest)
    (hlast : a.gap ++ a.close = [] → a.content.getLast? ≠ some ')')
    (hcontent : a.content = s ++ blank) (hblank : ∀ c ∈ blank, isBlank c = true)
    (hs : ∀ c ∈ s.getLast?, isBlank c = false) :
    unescapeUrl a.text = unescape s := by
  have hfirst : ∀ c ∈ s.head?, isBlank c = false := by
    intro c hc
    refine h.ended.content.head_not_blank c ?_
    rw [hcontent, List.head?_append]
    simp [Option.mem_def.mp hc]
  rw [unescapeUrl_text h.plain, h.body_eq hlast, hcontent, List.append_assoc]
  congr 1
  refine trimBlanks_around h.blanks (fun c hc => ?_) hfirst hs
  exact (List.mem_append.mp hc).elim (hblank c) (h.ended.gap c)

theorem Hides.not_hex (h : a.Hides c) : isHex c = false := by
  rcases h with h | ⟨rfl, -⟩
  · exact not_isHex_of_isBlank h
  · decide

theorem Hides.not_plain (h : a.Hides c) : isAddressChar c = false := by
  rcases h with h | ⟨rfl, -⟩
  · simp [isAddressChar, h]
  · decide

/-- The backslash in front of a hidden end starts an escape. -/
theorem Scanned.hidden_escape (h : a.Scanned rest) (hcontent : a.content = front ++ ['\\', c])
    (hc : a.Hides c) : ∃ r, Spelled isAddressChar front ('\\' :: c :: r) := by
  rcases h.ended.content.last with
    hnil | ⟨front', d, hlast, -, hd⟩ | ⟨front', e, hlast, hs, hstarts, hlength⟩
  · simp [hcontent] at hnil
  · have hsplit : front' ++ [d] = (front ++ ['\\']) ++ [c] := by simp [← hlast, hcontent]
    obtain ⟨-, hdc⟩ := List.append_inj' hsplit rfl
    rw [List.singleton_inj.mp hdc, hc.not_plain] at hd
    cases hd
  · have hone : e = [c] := by
      obtain ⟨e', x, rfl⟩ := (List.eq_nil_or_concat e).resolve_left (escape_ne_nil hstarts hlength)
      rw [List.concat_eq_append] at *
      have hsplit : (front' ++ '\\' :: e') ++ [x] = (front ++ ['\\']) ++ [c] := by
        simpa using hlast.symm.trans hcontent
      obtain ⟨hfront, hx⟩ := List.append_inj' hsplit rfl
      rcases List.eq_nil_or_concat e' with rfl | ⟨ys, y, rfl⟩
      · exact hx
      · -- a backslash is not among the digits and the blank of a longer escape
        rw [List.concat_eq_append] at *
        have hsplit' : (front' ++ '\\' :: ys) ++ [y] = front ++ ['\\'] := by simpa using hfront
        obtain ⟨-, hy⟩ := List.append_inj' hsplit' rfl
        obtain rfl := List.singleton_inj.mp hy
        have hmem : '\\' ∈ ys ++ ['\\'] ++ [x] := by simp
        rcases escape_cases hstarts hlength with ⟨d, hd, -⟩ | ⟨digits, blank, he, -, hdigits, hblanks, -⟩
        · simpa using congrArg List.length hd
        · rw [he] at hmem
          rcases List.mem_append.mp hmem with hmem | hmem
          · exact absurd (hdigits _ hmem) (by decide)
          · exact absurd (hblanks _ hmem) (by decide)
    subst hone
    obtain ⟨rfl, -⟩ := List.append_inj' (hcontent.symm.trans hlast) rfl
    exact ⟨_, hs⟩

/-- A hidden end is taken away, and its backslash stands for no character. -/
theorem Scanned.decoded_hidden (h : a.Scanned rest) (hcontent : a.content = front ++ ['\\', c])
    (hc : a.Hides c) : unescapeUrl a.text = unescape front ++ [replacement] ∧
      unescape a.content = unescape front ++ [c] := by
  obtain ⟨r, hfront⟩ := h.hidden_escape hcontent hc
  have hcut : Spelled isAddressChar front (['\\'] ++ c :: r) := hfront
  have hwhole : Spelled isAddressChar front (['\\', c] ++ r) := hfront
  have hreplacement : unescape (front ++ ['\\']) = unescape front ++ [replacement] :=
    hcut.left.unescape_append
  have hdenoted : unescape ['\\', c] = [c] := by
    simp [unescape, unescapeFrom, hc.not_hex]
  rw [hcontent, hwhole.left.unescape_append, hdenoted, ← hreplacement]
  refine ⟨?_, rfl⟩
  have hsplit : a.content = (front ++ ['\\']) ++ [c] := by simp [hcontent]
  have hslash : ∀ d ∈ (front ++ ['\\']).getLast?, isBlank d = false := by
    simp [isBlank, isNewline]
  rcases hc with hc | ⟨rfl, hnone⟩
  · refine h.unescapeUrl_of (fun _ hlast => ?_) hsplit (by simpa using hc) hslash
    rw [hsplit, List.getLast?_concat, Option.some.injEq] at hlast
    rw [hlast, not_blank_close] at hc
    cases hc
  · have hfirst : ∀ d ∈ (front ++ ['\\']).head?, isBlank d = false := by
      intro d hd
      refine h.ended.content.head_not_blank d ?_
      rw [hsplit, List.head?_append]
      simp [Option.mem_def.mp hd]
    have hbody : a.body = a.blanks ++ ((front ++ ['\\']) ++ []) := by
      have htext : a.blanks ++ (a.content ++ (a.gap ++ a.close)) =
          (a.blanks ++ (front ++ ['\\'])) ++ [')'] := by
        rw [hnone, hsplit]
        simp
      simp only [body, htext, List.getLast?_concat, List.dropLast_concat, if_true, List.append_nil]
    rw [unescapeUrl_text h.plain, hbody, trimBlanks_around h.blanks (by simp) hfirst hslash]

/-- Nothing else is decoded in another way than the content says. -/
theorem Scanned.decoded_plain (h : a.Scanned rest)
    (hplain : ¬∃ front c, a.content = front ++ ['\\', c] ∧ a.Hides c) :
    unescapeUrl a.text = unescape a.content := by
  rcases h.ended.content.last with
    hnil | ⟨front, c, hlast, -, hc⟩ | ⟨front, e, hlast, hs, hstarts, hlength⟩
  · rw [hnil]
    exact h.unescapeUrl_of (by simp [hnil]) (hnil.trans (List.append_nil []).symm) (by simp)
      (by simp)
  · simp only [isAddressChar, Bool.and_eq_true, decide_eq_true_eq, Bool.not_eq_true'] at hc
    refine h.unescapeUrl_of (fun _ hclose => ?_) (List.append_nil _).symm (by simp) fun d hd => ?_
    · rw [hlast, List.getLast?_concat, Option.some.injEq] at hclose
      exact hc.1.1 hclose
    · rw [hlast, List.getLast?_concat, Option.mem_some_iff] at hd
      exact hd ▸ hc.1.2
  · rcases escape_cases hstarts hlength with
      ⟨c, rfl, -⟩ | ⟨digits, blank, rfl, hne, hdigits, hblanks, hhex⟩
    · have hshown : ¬a.Hides c := fun hc => hplain ⟨front, c, hlast, hc⟩
      have hconcat : a.content = (front ++ ['\\']) ++ [c] := by simp [hlast]
      refine h.unescapeUrl_of (fun hnone hclose => ?_) (List.append_nil _).symm (by simp) fun d hd => ?_
      · rw [hconcat, List.getLast?_concat, Option.some.injEq] at hclose
        exact hshown (Or.inr ⟨hclose, hnone⟩)
      · rw [hconcat, List.getLast?_concat, Option.mem_some_iff] at hd
        rw [← hd]
        exact Bool.eq_false_iff.mpr fun hc => hshown (Or.inl hc)
    · -- the blank behind the digits belongs to the escape, which denotes the same without it
      have hlast' : a.content = (front ++ '\\' :: digits) ++ blank := by simp [hlast]
      have hdigit : ∀ c ∈ (front ++ '\\' :: digits).getLast?, isHex c = true := by
        intro c hc
        refine hdigits c (List.mem_of_getLast? ?_)
        rw [Option.mem_def, List.getLast?_append, List.getLast?_cons_of_ne_nil hne] at hc
        rwa [List.getLast?_eq_some_getLast hne] at hc ⊢
      have hvalue : unescape (front ++ '\\' :: digits) = unescape a.content := by
        obtain ⟨hstarts', hlength'⟩ := escape_left (r := []) hstarts hlength
        rw [List.append_nil] at hstarts' hlength'
        have hshort : Spelled isAddressChar front
            (('\\' :: digits) ++ (blank ++ (a.gap ++ (a.close ++ rest)))) := by simpa using hs
        have hlong : Spelled isAddressChar front
            (('\\' :: (digits ++ blank)) ++ (a.gap ++ (a.close ++ rest))) := hs
        rw [hlast, hshort.left.unescape_append, hlong.left.unescape_append,
          unescape_digits hne hdigits hhex, unescape_escape hstarts', hlength', List.drop_length]
        rfl
      rw [← hvalue]
      refine h.unescapeUrl_of (fun _ hclose => ?_) hlast' hblanks fun c hc => ?_
      · rw [hlast', List.getLast?_append] at hclose
        cases hget : blank.getLast? with
        | some d =>
          rw [hget] at hclose
          have hd := hblanks d (List.mem_of_getLast? hget)
          rw [show d = ')' from Option.some.inj hclose, not_blank_close] at hd
          cases hd
        | none =>
          rw [hget, Option.none_or] at hclose
          exact absurd (hdigit ')' hclose) (by decide)
      · by_contra hblank
        have hnone := not_isHex_of_isBlank ((Bool.not_eq_false _).mp hblank)
        rw [hdigit c hc] at hnone
        cases hnone

end Address

end CssTree
