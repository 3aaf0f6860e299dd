import CssTree.Proofs.Replacement
import CssTree.Proofs.Syntax.Fragment

namespace CssTree

open Syntax

theorem Declaration.renamed_eq {d : Declaration} (h : d.opening = none) (name : Text) :
    d.renamed name = d.name.leadingText ++ name ++ afterName d := by
  rw [Declaration.renamed, Declaration.tokensOf_elements, h]
  simp [afterName, afterValue, Token.render, Token.leadingText, Token.trailingText, Lexeme.render]

/-- The text of a declaration is its text under its own name. -/
theorem Node.render_declaration {n : Node} {d : Declaration} (hn : n.Formed)
    (hd : n.declaration? = some d) : n.render = d.renamed d.name.text := by
  rw [Node.render, ← n.tokens_eq, (hn.of_declaration? hd).2.2]
  rfl

namespace Tree

variable {config : Config} {t : Text} {n : Node} {d : Declaration} {name : Text}

/-- A declaration of a style sheet stands in its text. -/
theorem stands_of_parse (hn : n ∈ (Tree.parse .styleSheet config t).root.descendants)
    (hd : n.declaration? = some d) (hopening : d.opening = none) (herror : n.containsError = false) :
    ∃ next behind, Stands config.maxDepth d next behind := by
  let base := Grammar.State.start config .empty t
  have hsound : base.upcoming.Sound base.taken.reverse := Stream.sound_ofText config t
  have hgathers : (Tree.parse .styleSheet config t).root.Every (Grammar.Written base) :=
    (Grammar.styleSheet_written hsound base (.refl base)).2
  exact stands_of_written hsound (Stream.flat_ofText config t) (Nat.zero_le _)
    (Stream.present_ofText config t) (isCut_cut t) (hgathers n hn) hd hopening herror

end Tree

namespace Session

variable {config : Config} {t : Text} {n : Node} {d : Declaration} {name : Text}

/-- A declaration of a style sheet that is not disabled and holds no error gets another name, with
only the name replaced in the text, if in front of what follows the name it is one identifier, and
if what stands in front of it is not read as a disabled declaration. -/
theorem setProperty_renames (hn : n ∈ (Tree.parse .styleSheet config t).root.descendants)
    (hd : n.declaration? = some d) (hopening : d.opening = none)
    (herror : n.containsError = false)
    (hname : (cut (name ++ afterName d)).head? = some (.ident, name))
    (hstart : ¬(Grammar.State.start { config with comments := true }
      (Tree.parse .styleSheet config t).arena (d.renamed name)).StartsDisabled) :
    let s : Session := ⟨Tree.parse .styleSheet config t, false⟩
    let s' := (s.apply (.setProperty n.id name)).2.1
    (s.apply (.setProperty n.id name)).1 = .ok (some (.replaced n.id)) ∧
      ∃ front back n' d', s.tree.root.ahead? n.id = some front ∧
        t = Token.renderAll front ++ (d.name.leadingText ++ d.name.text ++ afterName d) ++ back ∧
        s'.tree.render =
          Token.renderAll front ++ (d.name.leadingText ++ name ++ afterName d) ++ back ∧
        s'.tree.find? n.id = some n' ∧
        n'.render = d.name.leadingText ++ name ++ afterName d ∧
        n'.declaration? = some d' ∧ d.Renamed name d' := by
  intro s s'
  let tree := Tree.parse .styleSheet config t
  have hsound : tree.Sound [] := Tree.sound_parse .styleSheet config t
  obtain ⟨next, behind, hstands⟩ := Tree.stands_of_parse hn hd hopening herror
  obtain ⟨e, hrenaming, hcut⟩ := hstands.rename hopening hname
  have htext : d.renamed name = d.name.leadingText ++ name ++ afterName d :=
    Declaration.renamed_eq hopening name
  rw [← htext] at hcut
  -- What is read from the new text.
  obtain ⟨fragment, tree', hreads⟩ : ∃ fragment tree',
      tree.reads .declaration (d.renamed name) = (fragment, tree') := ⟨_, _, rfl⟩
  have hfragment : fragment = (Production.declaration.fragment.run (.start
      { config with comments := true } tree.arena (d.renamed name))).1 :=
    (congrArg Prod.fst hreads).symm
  have hspells : fragment.Spells e := hfragment ▸ fragment_again hrenaming hcut hstart
  have he : e.Formed := hrenaming.shape.formed hrenaming.opening
  obtain ⟨f, hf, hfrenamed⟩ := hspells.renamed he hrenaming.toRenamed
  obtain ⟨hread, hcomplete, hroot, -⟩ := hsound.reads hreads
  -- The edit goes through.
  have hrun : (Mutation.setProperty n.id name).steps.run.run ⟨tree, []⟩ =
      (.ok (), ⟨tree'.replacedWith n.id (fragment.place n.span.start), [.replaced n.id]⟩) := by
    have hget : tree.declaration n.id = .ok d :=
      Tree.declaration_of_find? (hsound.find?_of_mem hn) hd
    have hkind : fragment.isError = false := by
      by_contra hne
      rw [Bool.not_eq_false, Node.isError, decide_eq_true_eq] at hne
      simp [Node.declaration?, hne] at hf
    rw [Mutation.steps, Edit.setProperty, Edit.run_tree, hget, Edit.run_of (Edit.liftM_run d)]
    refine (Edit.run_of (Edit.validFragment_run hreads hkind) _).trans ?_
    rw [hf, Option.any_some, if_pos (by simpa using hfrenamed.name)]
    exact Edit.replaceWith_run hsound hn hreads
  have hskeleton := fragment.skeleton_place n.span.start
  have hplaced : tree'.Sound ((fragment.place n.span.start).entries none) := by
    rwa [← Node.entries_skeleton, hskeleton, Node.entries_skeleton]
  have hformed := Node.formed_of_skeleton hcomplete.formed hskeleton
  obtain ⟨front, back, n', hahead, hrender, hfind, hrender', htree'⟩ :=
    hplaced.render_replacedWith (hroot ▸ hn) hformed
  obtain ⟨m, hfind', hsame⟩ := hplaced.find?_replacedWith (hroot ▸ hn) hformed
  obtain rfl : m = n' := Option.some.inj (hfind'.symm.trans hfind)
  obtain ⟨d', hd', hrenamed⟩ := (hspells.placed hsame).renamed he hrenaming.toRenamed
  have hafter : s'.tree = tree'.replacedWith n.id (fragment.place n.span.start) := by
    show ((Mutation.setProperty n.id name).steps.run.run ⟨tree, []⟩).2.tree = _
    rw [hrun]
  have htext' : (fragment.place n.span.start).render =
      d.name.leadingText ++ name ++ afterName d := by
    obtain ⟨f, hplace⟩ := fragment.place_eq_moved n.span.start
    rw [hplace, Node.render_moved, ← htext]
    rcases hsound.text_of_reads_iff hreads with ⟨⟨hnothing, -⟩, -⟩ | ⟨-, hrender⟩
    · simp [Production.ReadsNothing] at hnothing
    · exact hrender
  refine ⟨?_, front, Token.renderAll back, m, d', hroot ▸ hahead, ?_, ?_, hafter ▸ hfind,
    hrender'.trans htext', hd', hrenamed⟩
  · rw [apply, hrun]
    rfl
  · have hnode : n.render = d.name.leadingText ++ d.name.text ++ afterName d := by
      rw [Node.render_declaration (hsound.formed n hn) hd, ← Declaration.renamed_eq hopening]
    have hwhole : tree.render = t := (Tree.complete_parse_styleSheet config t).2
    rw [← hnode, ← hwhole, Tree.render, ← hroot]
    exact hrender
  · rw [hafter, htree', htext']

/-- A declaration is renamed, with the comments around its name kept. -/
theorem setProperty_renames_plain :
    let s : Session := ⟨Tree.parse .styleSheet {} "a{/* x */ b : c}".toList, false⟩
    let s' := (s.apply (.setProperty 5 "z".toList)).2.1
    ∃ (d : Declaration) (n' : Node) (d' : Declaration), s.tree.declaration 5 = .ok d ∧
      (s.apply (.setProperty 5 "z".toList)).1 = .ok (some (.replaced 5)) ∧
      s'.tree.find? 5 = some n' ∧ n'.declaration? = some d' ∧ d.Renamed "z".toList d' ∧
      s'.tree.render = "a{/* x */ z : c}".toList := by
  intro s s'
  let fits (n : Node) (d : Declaration) : Bool :=
    d.opening.isNone && !n.containsError &&
      decide ((cut ("z".toList ++ afterName d)).head? = some (.ident, "z".toList)) &&
      !decide (Grammar.State.start { comments := true } s.tree.arena
        (d.renamed "z".toList)).StartsDisabled
  have hall : (s.tree.find? 5).any (fun n => n.declaration?.any (fits n)) = true := by
    decide +kernel
  obtain ⟨n, hfind, hn⟩ := (Option.any_eq_true _ _).mp hall
  obtain ⟨d, hd, hfits⟩ := (Option.any_eq_true _ _).mp hn
  have hget : s.tree.get 5 = .ok n := by rw [Tree.get, hfind]
  obtain ⟨hmem, hid⟩ := Tree.mem_of_get hget
  simp only [fits, Bool.and_eq_true, Bool.not_eq_true', decide_eq_true_eq, decide_eq_false_iff_not,
    Option.isNone_iff_eq_none] at hfits
  obtain ⟨⟨⟨hopening, herror⟩, hname⟩, hstart⟩ := hfits
  obtain ⟨hok, front, back, n', d', -, -, -, hfind', -, hd', hrenamed⟩ :=
    setProperty_renames hmem hd hopening herror hname hstart
  rw [hid] at hok hfind'
  exact ⟨d, n', d', Tree.declaration_of_find? hfind hd, hok, hfind', hd', hrenamed,
    by decide +kernel⟩

/-- In front of a declaration, a comment that can be read as a disabled one is taken for it. -/
theorem setProperty_takes_comment :
    let s : Session := ⟨Tree.parse .styleSheet {} "a{/* x: y */ b: c}".toList, false⟩
    let name := "z".toList
    (s.tree.find? 5).any (fun n => n.declaration?.any fun d => d.opening.isNone) = true ∧
      cut name = [(.ident, name)] ∧ (s.apply (.setProperty 5 name)).1.toOption = none := by
  decide +kernel

end Session

end CssTree
