import CssTree.Proofs.Edit.Insert
import CssTree.Proofs.Session
import CssTree.Proofs.Text.Patch

namespace CssTree

theorem Node.size_child_lt {n c : Node} (h : c ∈ n.children) : c.size < n.size := by
  have hsublist : c.descendants.Sublist (n.children.flatMap Node.descendants) :=
    List.sublist_flatten_of_mem (List.mem_map_of_mem h)
  rw [Node.size, Node.size, n.descendants_children, List.length_cons]
  exact Nat.lt_succ_of_le hsublist.length_le

theorem Node.size_le {n m : Node} (h : m ∈ n.descendants) : m.size ≤ n.size :=
  (Node.descendants_contiguous h).sublist.length_le

namespace Tree.Sound

variable {tree : Tree} {n : Node} {loose : List Entry}

/-- A climb of as many steps as there are nodes that are not below a node comes by the nodes around
it, up to the root. -/
theorem mem_climb_iff (h : tree.Sound loose) (id : NodeId) : ∀ {k : Nat} {n : Node},
    n ∈ tree.root.descendants → tree.root.size ≤ k + n.size →
      (id = n.id ∨ id ∈ tree.arena.climb k n.id ↔
        ∃ m ∈ tree.root.descendants, m.id = id ∧ n ∈ m.descendants)
  | k, n, hn, hsteps => by
    rcases Node.exists_parent hn with rfl | ⟨p, hp, hchild⟩
    · have hnone : tree.arena.climb k tree.root.id = [] := by
        cases k with
        | zero => rfl
        | succ k => rw [Arena.climb, h.parent?_root]
      rw [hnone]
      constructor
      · rintro (rfl | hmem)
        · exact ⟨_, hn, rfl, hn⟩
        · cases hmem
      · rintro ⟨m, hm, rfl, hroot⟩
        rcases Node.exists_parent hroot with heq | ⟨q, hq, hchild⟩
        · exact Or.inl (congrArg Node.id heq.symm)
        · have hparent := h.parent?_child (Node.mem_descendants_trans hm hq) hchild
          rw [h.parent?_root] at hparent
          cases hparent
    · have hlt := Node.size_child_lt hchild
      have hle := Node.size_le hp
      obtain ⟨k, rfl⟩ : ∃ l, k = l + 1 := Nat.exists_eq_add_one.mpr (by omega)
      have hclimb : tree.arena.climb (k + 1) n.id = p.id :: tree.arena.climb k p.id := by
        rw [Arena.climb, h.parent?_child hp hchild]
      rw [hclimb, List.mem_cons, mem_climb_iff h id hp (by omega)]
      constructor
      · rintro (rfl | ⟨m, hm, hid, hpm⟩)
        · exact ⟨n, hn, rfl, n.mem_descendants_self⟩
        · exact ⟨m, hm, hid, Node.mem_descendants_trans hpm (Node.mem_descendants_child hchild)⟩
      · rintro ⟨m, hm, hid, hnm⟩
        rcases Node.exists_parent hnm with rfl | ⟨q, hq, hchild'⟩
        · exact Or.inl hid.symm
        · have hparent := h.parent?_child (Node.mem_descendants_trans hm hq) hchild'
          rw [h.parent?_child hp hchild] at hparent
          obtain rfl : p = q := List.inj_on_of_nodup_map h.nodup hp
            (Node.mem_descendants_trans hm hq) (Option.some.inj hparent)
          exact Or.inr ⟨m, hm, hid, hq⟩

/-- The nodes that grow with a node are that node and those around it. -/
theorem mem_growing_iff (h : tree.Sound loose) (hn : n ∈ tree.root.descendants) {m : Node}
    (hm : m ∈ tree.root.descendants) :
    m.id ∈ tree.arena.above n.id ++ [n.id] ↔ n ∈ m.descendants := by
  have hsize : tree.root.size ≤ tree.arena.size := h.size_le
  rw [List.mem_append, List.mem_singleton, or_comm, Arena.above,
    h.mem_climb_iff m.id hn (by omega)]
  constructor
  · rintro ⟨x, hx, hid, hnx⟩
    obtain rfl : x = m := List.inj_on_of_nodup_map h.nodup hx hm hid
    exact hnx
  · exact fun hnm => ⟨m, hm, rfl, hnm⟩

end Tree.Sound

/-- A span of the characters of a text from the one at `i` up to the one at `j`. No line break is
cut at its ends. -/
structure Span.Covers (t : Text) (i j : Nat) (r : Span) : Prop where
  eq : r = .within t i j
  le : i ≤ j
  inside : j ≤ t.length
  start : Clean [] t i
  stop : Clean [] t j

namespace CleanPatch

variable {a x b : Text} {i j : Nat} {r : Span}

theorem insert_front (h : CleanPatch a x b) (hr : r.Covers (a ++ b) i j) (hij : i < j)
    (hj : j ≤ a.length) :
    (Span.ofText (.advance .origin a) x).insert r = .within (a ++ x ++ b) i j := by
  rw [hr.eq, h.insert_within hij hr.inside hr.start, if_pos hj, if_pos (Nat.lt_of_lt_of_le hij hj)]

theorem insert_back (h : CleanPatch a x b) (hr : r.Covers (a ++ b) i j) (hij : i < j)
    (hi : a.length ≤ i) : (Span.ofText (.advance .origin a) x).insert r =
      .within (a ++ x ++ b) (i + x.length) (j + x.length) := by
  rw [hr.eq, h.insert_within hij hr.inside hr.start, if_neg (Nat.not_lt.mpr hi),
    if_neg (Nat.not_le.mpr (Nat.lt_of_le_of_lt hi hij))]

theorem insert_across (h : CleanPatch a x b) (hr : r.Covers (a ++ b) i j) (hi : i < a.length)
    (hj : a.length < j) : (Span.ofText (.advance .origin a) x).insert r =
      .within (a ++ x ++ b) i (j + x.length) := by
  rw [hr.eq, h.insert_within (Nat.lt_trans hi hj) hr.inside hr.start, if_pos hi,
    if_neg (Nat.not_le.mpr hj)]

theorem delete_covers (h : CleanPatch a x b) (hr : r.Covers (a ++ x ++ b) i j) :
    (Span.ofText (.advance .origin a) x).delete r = .within (a ++ b)
      (keptIndex a.length x.length i) (keptIndex a.length x.length j) := by
  rw [hr.eq, h.delete_within hr.le hr.start hr.stop]

/-- A span that the insertion point touches is that of characters that it touches. -/
theorem touches (h : CleanPatch a x b) (hr : r.Covers (a ++ b) i j)
    (hstart : r.start ≤ .advance .origin a) (hstop : .advance .origin a ≤ r.stop) :
    i ≤ a.length ∧ a.length ≤ j := by
  have hplace : Position.ofIndex (a ++ b) a.length = .advance .origin a := by
    rw [Position.ofIndex_append _ (Nat.le_refl _), Position.ofIndex_length]
  have hclean : Clean [] (a ++ b) a.length := by simpa [Clean] using h.joined
  rw [← hplace] at hstart hstop
  rw [hr.eq] at hstart hstop
  refine ⟨Nat.le_of_not_lt fun hlt => ?_, Nat.le_of_not_lt fun hlt => ?_⟩
  · exact Position.not_lt_of_le hstart
      (Position.ofIndex_lt hlt (Nat.le_trans hr.le hr.inside) hclean)
  · exact Position.not_lt_of_le hstop (Position.ofIndex_lt hlt (by simp) hr.stop)

end CleanPatch

namespace Lexeme

variable {xs ys : List Lexeme}

/-- A text that no line break is cut in may be cut between lexemes. -/
theorem Whole.not_fuse_render (h : Whole (xs ++ ys)) : ¬Fuse (render xs) (render ys) := by
  have hcut := h (xs.map Lexeme.text) (ys.map Lexeme.text) (by simp)
  simpa [flatten_texts] using hcut

theorem Whole.clean (h : Whole (xs ++ ys)) : Clean [] (render (xs ++ ys)) (render xs).length := by
  rw [render_append, Clean, List.take_left, List.drop_left, List.nil_append]
  exact h.not_fuse_render

/-- The text of some lexemes, where those around them can be joined. -/
theorem Whole.cleanPatch {zs : List Lexeme} (h : Whole (xs ++ ys ++ zs))
    (hjoined : ¬Fuse (render xs) (render zs)) : CleanPatch (render xs) (render ys) (render zs) where
  front := by
    rw [List.append_assoc] at h
    have hfront := not_fuse_take h.not_fuse_render (render ys).length
    rwa [render_append, List.take_left] at hfront
  back := by
    have hback := h.not_fuse_render
    by_cases hnone : render ys = []
    · rw [hnone]
      exact not_fuse_nil_left _
    · rwa [render_append, fuse_append_left_iff hnone] at hback
  joined := hjoined

/-- Some lexemes in the middle of others. -/
theorem Whole.covers {zs : List Lexeme} (h : Whole (xs ++ ys ++ zs)) :
    (Span.behind (render xs) (render ys)).Covers (render (xs ++ ys ++ zs)) (render xs).length
      ((render xs).length + (render ys).length) where
  eq := by rw [render_append, render_append, Span.within_behind]
  le := Nat.le_add_right _ _
  inside := by simp
  start := by
    rw [List.append_assoc] at h ⊢
    exact h.clean
  stop := by
    rw [← List.length_append, ← render_append]
    exact h.clean

theorem Laid.covers {l : Lexeme} (h : Laid [] (xs ++ l :: ys)) (hwhole : Whole (xs ++ l :: ys)) :
    l.span.Covers (render (xs ++ l :: ys)) (render xs).length
      ((render xs).length + l.text.length) := by
  have hspan : l.span = .behind (render xs) (render [l]) := by
    simpa using (laid_append.mp h).2.1
  have hsplit : xs ++ l :: ys = xs ++ [l] ++ ys := by simp
  rw [hsplit] at hwhole ⊢
  rw [hspan]
  simpa using hwhole.covers

end Lexeme

namespace Token

theorem lexemesOf_mapSpans (f : Span → Span) (ts : List Token) :
    lexemesOf (ts.map (·.mapSpans f)) = (lexemesOf ts).map (·.moved f) := by
  induction ts with
  | nil => rfl
  | cons t ts ih =>
    rw [List.map_cons, lexemesOf_cons, lexemesOf_cons, List.map_append, ih, lexemes, lexemes,
      List.map_append, List.map_cons]
    rfl

end Token

namespace Tree

/-- The lexemes of a tree in source order. -/
def lexemes (tree : Tree) : List Lexeme := Token.lexemesOf tree.root.tokens

/-- Which characters of the text of a tree a node covers: from which one on, and up to which. -/
def extent? (tree : Tree) (id : NodeId) : Option (Nat × Nat) :=
  (tree.root.ahead? id).bind fun front => (tree.find? id).map fun n =>
    ((Token.renderAll front).length, (Token.renderAll front).length + n.render.length)

variable {tree : Tree} {m n : Node} {i j : Nat} {loose : List Entry}

theorem render_lexemes (tree : Tree) : Lexeme.render tree.lexemes = tree.render :=
  Token.render_lexemesOf _

theorem Sound.covers (h : tree.Sound loose) (hlaid : tree.root.Laid [])
    (hwhole : Lexeme.Whole tree.lexemes) (hm : m ∈ tree.root.descendants)
    (hextent : tree.extent? m.id = some (i, j)) : m.span.Covers tree.render i j := by
  obtain ⟨front, back, hahead, htokens, -⟩ := Node.ahead?_split h.nodup hm
  rw [extent?, hahead, find?, Node.find?_of_mem h.nodup hm] at hextent
  obtain ⟨rfl, rfl⟩ := Prod.mk.inj (Option.some.inj hextent)
  have hspan := (hlaid.ahead h.nodup hm hahead).span
  have hlexemes : tree.lexemes =
      Token.lexemesOf front ++ Token.lexemesOf m.tokens ++ Token.lexemesOf back := by
    rw [lexemes, htokens, Token.lexemesOf_append, Token.lexemesOf_append]
  rw [hlexemes] at hwhole
  have hcovers := hwhole.covers
  rw [← hlexemes, render_lexemes, Token.render_lexemesOf, Token.render_lexemesOf] at hcovers
  rw [hspan]
  exact hcovers

theorem covers_lexeme (hlaid : tree.root.Laid []) (hwhole : Lexeme.Whole tree.lexemes)
    {xs ys : List Lexeme} {l : Lexeme} (hl : tree.lexemes = xs ++ l :: ys) :
    l.span.Covers tree.render (Lexeme.render xs).length
      ((Lexeme.render xs).length + l.text.length) := by
  have hlexemes : Lexeme.Laid [] tree.lexemes := hlaid.laidAll_tokens
  rw [← render_lexemes, hl]
  rw [hl] at hwhole hlexemes
  exact hlexemes.covers hwhole

theorem contains_span (hlaid : tree.root.Laid []) (hm : m ∈ tree.root.descendants)
    (hn : n ∈ m.descendants) : m.span.Contains n.span := by
  obtain ⟨xs, -, -, hm'⟩ := hlaid.descendant hm
  obtain ⟨ys, zs, htokens, hn'⟩ := hm'.descendant hn
  rw [hm'.span, hn'.span, Node.render, htokens, Token.renderAll_append, Token.renderAll_append]
  exact Span.contains_behind

theorem getElem?_lexemes_moved {f : NodeId → Span → Span} {g : Span → Span} {tree' : Tree}
    (h : tree'.root = tree.root.moved f g) {xs ys : List Lexeme} {l : Lexeme}
    (hl : tree.lexemes = xs ++ l :: ys) : tree'.lexemes[xs.length]? = some (l.moved g) := by
  have hlexemes : tree'.lexemes = tree.lexemes.map (·.moved g) := by
    rw [lexemes, h, Node.tokens_moved, Token.lexemesOf_mapSpans, lexemes]
  rw [hlexemes, hl, List.getElem?_map, List.getElem?_append_right (Nat.le_refl _), Nat.sub_self]
  rfl

theorem find?_moved {f : NodeId → Span → Span} {g : Span → Span} {tree' : Tree}
    (hnodup : (tree.root.descendants.map Node.id).Nodup) (h : tree'.root = tree.root.moved f g)
    (hm : m ∈ tree.root.descendants) : tree'.find? m.id = some (m.moved f g) := by
  have hfound := Node.find?_of_mem (by rwa [Node.ids_moved]) (Node.mem_moved f g hm)
  rw [Node.id_moved] at hfound
  rw [find?, h]
  exact hfound

variable {front mid back : List Lexeme} {x : Text}

/-- Room for a text: what stands on one side of it moves with the text of that side. -/
theorem getElem?_lexemes_makeRoom (hlaid : tree.root.Laid []) (hwhole : Lexeme.Whole tree.lexemes)
    (hcut : tree.lexemes = front ++ back)
    (hpatch : CleanPatch (Lexeme.render front) x (Lexeme.render back)) (id : NodeId)
    {xs ys : List Lexeme} {l : Lexeme} (hl : tree.lexemes = xs ++ l :: ys) (hne : l.text ≠ []) :
    let t := Lexeme.render front ++ x ++ Lexeme.render back
    let i := (Lexeme.render xs).length
    let j := i + l.text.length
    (tree.makeRoom id (some (.ofText (.advance .origin (Lexeme.render front)) x))).lexemes[xs.length]? =
      some { l with span := if xs.length < front.length then .within t i j
        else .within t (i + x.length) (j + x.length) } := by
  intro t i j
  have hcovers : l.span.Covers tree.render i j := covers_lexeme hlaid hwhole hl
  rw [← render_lexemes, hcut, Lexeme.render_append] at hcovers
  have hij : i < j := Nat.lt_add_of_pos_right (List.length_pos_of_ne_nil hne)
  rw [getElem?_lexemes_moved (tree.root_makeRoom_grow id _) hl, Lexeme.moved]
  congr 2
  rcases List.append_eq_append_iff.mp (hcut.symm.trans hl) with ⟨zs, rfl, -⟩ | ⟨zs, rfl, hzs⟩
  · rw [if_neg (by simp)]
    exact hpatch.insert_back hcovers hij (by simp [i])
  · cases zs with
    | nil =>
      rw [if_neg (by simp)]
      exact hpatch.insert_back hcovers hij (by simp [i])
    | cons z zs =>
      obtain ⟨rfl, -⟩ := List.cons.inj hzs
      rw [if_pos (by simp)]
      refine hpatch.insert_front hcovers hij ?_
      simp only [j, i, Lexeme.render_append, Lexeme.render_cons, List.length_append]
      omega

/-- A gap that is closed: lexemes have the spans of what is left of them. -/
theorem getElem?_lexemes_closeGap (hlaid : tree.root.Laid []) (hwhole : Lexeme.Whole tree.lexemes)
    (hcut : tree.lexemes = front ++ mid ++ back)
    (hjoined : ¬Fuse (Lexeme.render front) (Lexeme.render back))
    {xs ys : List Lexeme} {l : Lexeme} (hl : tree.lexemes = xs ++ l :: ys) :
    let m := (Lexeme.render front).length
    let n := (Lexeme.render mid).length
    let i := (Lexeme.render xs).length
    let r : Span := .within (Lexeme.render front ++ Lexeme.render back) (keptIndex m n i)
      (keptIndex m n (i + l.text.length))
    (tree.closeGap (.within tree.render m (m + n)) none).lexemes[xs.length]? =
      some { l with span := r } := by
  intro m n i r
  have hpatch := (hcut ▸ hwhole).cleanPatch hjoined
  have hrender : tree.render = Lexeme.render front ++ Lexeme.render mid ++ Lexeme.render back := by
    rw [← render_lexemes, hcut, Lexeme.render_append, Lexeme.render_append]
  have hcovers : l.span.Covers tree.render i (i + l.text.length) :=
    covers_lexeme hlaid hwhole hl
  rw [getElem?_lexemes_moved (root_closeGap _ tree) hl, Lexeme.moved]
  rw [hrender] at hcovers ⊢
  rw [← hpatch.ofText_eq_within, hpatch.delete_covers hcovers]

namespace Sound

theorem find?_makeRoom (h : tree.Sound loose) (hlaid : tree.root.Laid [])
    (hwhole : Lexeme.Whole tree.lexemes) (hcut : tree.lexemes = front ++ back)
    (hpatch : CleanPatch (Lexeme.render front) x (Lexeme.render back))
    (hn : n ∈ tree.root.descendants)
    (hstart : n.span.start ≤ .advance .origin (Lexeme.render front))
    (hstop : .advance .origin (Lexeme.render front) ≤ n.span.stop)
    (hm : m ∈ tree.root.descendants) (hextent : tree.extent? m.id = some (i, j)) :
    let a := Lexeme.render front
    let t := a ++ x ++ Lexeme.render back
    ∃ m', (tree.makeRoom n.id (some (.ofText (.advance .origin a) x))).find? m.id = some m' ∧
      (i < j → n ∉ m.descendants → j ≤ a.length → m'.span = .within t i j) ∧
      (i < j → n ∉ m.descendants → a.length ≤ i →
        m'.span = .within t (i + x.length) (j + x.length)) ∧
      (n ∈ m.descendants ∨ i < a.length ∧ a.length < j →
        m'.span = .within t i (j + x.length)) := by
  intro a t
  have hcovers := h.covers hlaid hwhole hm hextent
  rw [← render_lexemes, hcut, Lexeme.render_append] at hcovers
  refine ⟨_, find?_moved h.nodup (tree.root_makeRoom_grow n.id _) hm, ?_⟩
  rw [Node.span_moved, Tree.grow]
  by_cases hin : n ∈ m.descendants
  · obtain ⟨hfirst, hlast⟩ := contains_span hlaid hm hin
    obtain ⟨hi, hj⟩ := hpatch.touches hcovers (Position.le_trans hfirst hstart)
      (Position.le_trans hstop hlast)
    rw [if_pos ((h.mem_growing_iff hn hm).mpr hin)]
    refine ⟨fun _ hnot => absurd hin hnot, fun _ hnot => absurd hin hnot, fun _ => ?_⟩
    rw [hcovers.eq]
    exact hpatch.insert_join_within hi hj hcovers.inside hcovers.start
  · rw [if_neg fun hgrows => hin ((h.mem_growing_iff hn hm).mp hgrows)]
    refine ⟨fun hij _ hj => hpatch.insert_front hcovers hij hj,
      fun hij _ hi => hpatch.insert_back hcovers hij hi, ?_⟩
    rintro (hmem | ⟨hi, hj⟩)
    · exact absurd hmem hin
    · exact hpatch.insert_across hcovers hi hj

theorem find?_closeGap (h : tree.Sound loose) (hlaid : tree.root.Laid [])
    (hwhole : Lexeme.Whole tree.lexemes) (hcut : tree.lexemes = front ++ mid ++ back)
    (hjoined : ¬Fuse (Lexeme.render front) (Lexeme.render back))
    (hm : m ∈ tree.root.descendants) (hextent : tree.extent? m.id = some (i, j)) :
    let k := (Lexeme.render front).length
    let n := (Lexeme.render mid).length
    ∃ m', (tree.closeGap (.within tree.render k (k + n)) none).find? m.id = some m' ∧
      m'.span = .within (Lexeme.render front ++ Lexeme.render back) (keptIndex k n i)
        (keptIndex k n j) := by
  intro k n
  have hpatch := (hcut ▸ hwhole).cleanPatch hjoined
  have hrender : tree.render = Lexeme.render front ++ Lexeme.render mid ++ Lexeme.render back := by
    rw [← render_lexemes, hcut, Lexeme.render_append, Lexeme.render_append]
  have hcovers := h.covers hlaid hwhole hm hextent
  refine ⟨_, find?_moved h.nodup (root_closeGap _ tree) hm, ?_⟩
  rw [Node.span_moved]
  rw [hrender] at hcovers ⊢
  rw [← hpatch.ofText_eq_within, hpatch.delete_covers hcovers]

end Sound

end Tree

namespace Session

/-- In every session, as long as the spans of the tree are those of its text and no line break is cut
between lexemes, repair gives the spans in the text that comes of a change. (1) Room made for a text
in a node that touches it: lexemes on one side of it, and nodes on one side but for that one and
those around it, have the spans of their characters; the node, those around it and all that the text
is put into have the spans of their characters and the text. (2) A gap closed: lexemes and nodes
have the spans of those of their characters that are left. -/
theorem repair_follows_text (p : Production) (config : Config) (source : Text)
    (calls : List Call) :
    let tree := (Session.run ⟨Tree.parse p config source, false⟩ calls).tree
    tree.root.Laid [] → Lexeme.Whole tree.lexemes →
      (∀ (front back : List Lexeme) (x : Text), ∀ n ∈ tree.root.descendants,
        tree.lexemes = front ++ back →
        let a := Lexeme.render front
        let b := Lexeme.render back
        let place := Position.origin.advance a
        let tree' := tree.makeRoom n.id (some (.ofText place x))
        n.span.start ≤ place → place ≤ n.span.stop → ¬Fuse a x → ¬Fuse x b →
          (∀ xs l ys, tree.lexemes = xs ++ l :: ys → l.text ≠ [] →
            let i := (Lexeme.render xs).length
            let j := i + l.text.length
            let r : Span := if xs.length < front.length then .within (a ++ x ++ b) i j
              else .within (a ++ x ++ b) (i + x.length) (j + x.length)
            tree'.lexemes[xs.length]? = some { l with span := r }) ∧
          ∀ m ∈ tree.root.descendants, ∀ i j, tree.extent? m.id = some (i, j) →
            ∃ m', tree'.find? m.id = some m' ∧
              (i < j → n ∉ m.descendants → j ≤ a.length →
                m'.span = .within (a ++ x ++ b) i j) ∧
              (i < j → n ∉ m.descendants → a.length ≤ i →
                m'.span = .within (a ++ x ++ b) (i + x.length) (j + x.length)) ∧
              (n ∈ m.descendants ∨ i < a.length ∧ a.length < j →
                m'.span = .within (a ++ x ++ b) i (j + x.length))) ∧
      ∀ front mid back : List Lexeme, tree.lexemes = front ++ mid ++ back →
        let a := Lexeme.render front
        let x := Lexeme.render mid
        let b := Lexeme.render back
        let tree' := tree.closeGap (.within (a ++ x ++ b) a.length (a.length + x.length)) none
        let kept := keptIndex a.length x.length
        ¬Fuse a b →
          (∀ xs l ys, tree.lexemes = xs ++ l :: ys →
            let i := (Lexeme.render xs).length
            let j := i + l.text.length
            tree'.lexemes[xs.length]? = some { l with span := .within (a ++ b) (kept i) (kept j) }) ∧
          ∀ m ∈ tree.root.descendants, ∀ i j, tree.extent? m.id = some (i, j) →
            ∃ m', tree'.find? m.id = some m' ∧ m'.span = .within (a ++ b) (kept i) (kept j) := by
  intro tree hlaid hwhole
  have hsound : tree.Sound [] := sound_run (Tree.sound_parse p config source) calls
  constructor
  · intro front back x n hn hcut a b place tree' hstart hstop hax hxb
    have hpatch : CleanPatch a x b := ⟨hax, hxb, (hcut ▸ hwhole).not_fuse_render⟩
    refine ⟨fun xs l ys hl hne => ?_, fun m hm i j hextent => ?_⟩
    · exact Tree.getElem?_lexemes_makeRoom hlaid hwhole hcut hpatch n.id hl hne
    · exact hsound.find?_makeRoom hlaid hwhole hcut hpatch hn hstart hstop hm hextent
  · intro front mid back hcut a x b tree' kept hjoined
    have hrender : tree.render = a ++ x ++ b := by
      rw [← Tree.render_lexemes, hcut, Lexeme.render_append, Lexeme.render_append]
    have htree : tree' = tree.closeGap (.within tree.render a.length (a.length + x.length)) none := by
      rw [hrender]
    rw [htree]
    refine ⟨fun xs l ys hl => ?_, fun m hm i j hextent => ?_⟩
    · exact Tree.getElem?_lexemes_closeGap hlaid hwhole hcut hjoined hl
    · exact hsound.find?_closeGap hlaid hwhole hcut hjoined hm hextent

/-- A comment put behind a value, and a block without its declaration. -/
theorem repair_follows_text_value :
    let tree := (Session.run ⟨Tree.parse .styleSheet {} "a{b:c}\r\nd{}".toList, false⟩ []).tree
    tree.root.Laid [] ∧ Lexeme.Whole tree.lexemes ∧
      (∃ n, (tree.makeRoom 4 (some (.ofText ⟨0, 5⟩ "/**/".toList))).find? 4 = some n ∧
        n.span = .within "a{b:c/**/}\r\nd{}".toList 4 9) ∧
      ∃ n, (tree.closeGap (.within "a{b:c}\r\nd{}".toList 2 5) none).find? 6 = some n ∧
        n.span = .within "a{}\r\nd{}".toList 1 3 := by
  intro tree
  obtain ⟨hlaid, hwhole⟩ := Tree.laid_parse .styleSheet {} "a{b:c}\r\nd{}".toList
  obtain ⟨hroom, hgap⟩ :=
    repair_follows_text .styleSheet {} "a{b:c}\r\nd{}".toList [] hlaid hwhole
  refine ⟨hlaid, hwhole, ?_, ?_⟩
  · have hfront : Lexeme.render (tree.lexemes.take 5) = "a\x7bb:c".toList := by decide +kernel
    have hback : Lexeme.render (tree.lexemes.drop 5) = "\x7d\r\nd{}".toList := by decide +kernel
    have hspan : (tree.find? 4).map Node.span = some ⟨⟨0, 4⟩, ⟨0, 5⟩⟩ := by decide +kernel
    obtain ⟨n, hfound, hn⟩ := Option.map_eq_some_iff.mp hspan
    have hfind : tree.root.descendants.find? (·.id = 4) = some n := hfound
    have hmem := List.mem_of_find?_eq_some hfind
    have hid : n.id = 4 := by simpa using List.find?_some hfind
    obtain ⟨-, hnodes⟩ := hroom (tree.lexemes.take 5) (tree.lexemes.drop 5) "/**/".toList n hmem
      (List.take_append_drop 5 _).symm (by rw [hfront, hn]; decide) (by rw [hfront, hn]; decide)
      (by rw [hfront]; decide) (by rw [hback]; decide)
    obtain ⟨m, hm, -, -, hgrown⟩ := hnodes n hmem 4 5 (by rw [hid]; decide +kernel)
    replace hgrown := hgrown (Or.inl n.mem_descendants_self)
    rw [hid, hfront] at hm
    rw [hfront, hback] at hgrown
    exact ⟨m, hm, hgrown⟩
  · have hfront : Lexeme.render (tree.lexemes.take 2) = "a\x7b".toList := by decide +kernel
    have hmid : Lexeme.render ((tree.lexemes.drop 2).take 3) = "b:c".toList := by decide +kernel
    have hback : Lexeme.render ((tree.lexemes.drop 2).drop 3) = "\x7d\r\nd{}".toList := by
      decide +kernel
    have hextent : tree.extent? 6 = some (1, 6) := by decide +kernel
    obtain ⟨n, hfound⟩ : ∃ n, tree.find? 6 = some n :=
      Option.isSome_iff_exists.mp (by decide +kernel)
    have hfind : tree.root.descendants.find? (·.id = 6) = some n := hfound
    have hmem := List.mem_of_find?_eq_some hfind
    have hid : n.id = 6 := by simpa using List.find?_some hfind
    obtain ⟨-, hnodes⟩ := hgap (tree.lexemes.take 2) ((tree.lexemes.drop 2).take 3)
      ((tree.lexemes.drop 2).drop 3) (by
        rw [List.append_assoc, List.take_append_drop, List.take_append_drop])
      (by rw [hfront, hback]; decide)
    obtain ⟨m, hm, hspan⟩ := hnodes n hmem 1 6 (hid ▸ hextent)
    rw [hid, hfront, hmid, hback] at hm
    rw [hfront, hmid, hback] at hspan
    exact ⟨m, hm, hspan⟩

end Session

end CssTree
