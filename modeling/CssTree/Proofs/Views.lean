import CssTree.Proofs.Shape
import CssTree.Proofs.Tree.Context

namespace CssTree

namespace Frame

variable {C : List Frame} {x : Node} {front back : List Element} {t : Token}

/-- A tree that is refilled with its own tokens but for one. -/
theorem refill_plug (hx : x.elements = front ++ .token t :: back) (u : Token) (ts : List Token) :
    (plug C x).refill (before C ++
        (Element.tokensOf front ++ u :: (Element.tokensOf back ++ (behind C ++ ts)))) =
      (plug C { x with elements := front ++ .token u :: back }, ts) := by
  induction C generalizing ts with
  | nil =>
    obtain ⟨id, kind, span, es⟩ := x
    obtain rfl : es = front ++ .token t :: back := hx
    show Node.refill ⟨id, kind, span, _⟩ (Element.tokensOf front ++
      u :: (Element.tokensOf back ++ ts)) = _
    rw [Node.refill, Element.refillAll_front, Element.refillAll, Element.refillAll_tokensOf]
    rfl
  | cons F C ih =>
    have hbefore : before (F :: C) = Element.tokensOf F.front ++ before C := rfl
    have hbehind : behind (F :: C) = behind C ++ Element.tokensOf F.back := by simp [behind]
    rw [plug_cons, fill, Node.refill, hbefore, hbehind, List.append_assoc, List.append_assoc,
      Element.refillAll_front, Element.refillAll, ih]
    simp only [Element.refillAll_tokensOf]
    rfl

end Frame

namespace Node

open CssTree.Frame (plug before behind)

/-- The token of a node that stands at `i` in document order, and the node with another token in its
place. -/
def placeAt? (i : Nat) (n : Node) : Option (Place Node) :=
  n.tokens[i]?.map fun t => ⟨t, fun u => n.mapTokens (·.set i u)⟩

variable {C : List Frame} {x : Node} {front back : List Element} {t : Token}

theorem placeAt?_plug (hx : x.elements = front ++ .token t :: back) :
    (plug C x).placeAt? ((before C).length + (Element.tokensOf front).length) =
      some ⟨t, fun u => plug C { x with elements := front ++ .token u :: back }⟩ := by
  obtain ⟨id, kind, span, es⟩ := x
  obtain rfl : es = front ++ .token t :: back := hx
  have htokens : (plug C ⟨id, kind, span, front ++ .token t :: back⟩).tokens =
      (before C ++ Element.tokensOf front) ++ t :: (Element.tokensOf back ++ behind C) := by
    rw [Frame.tokens_plug, Node.tokens_mk]
    simp
  rw [placeAt?, htokens, ← List.length_append, List.getElem?_append_right (Nat.le_refl _),
    Nat.sub_self, List.getElem?_cons_zero, Option.map_some]
  congr 2
  funext u
  have hset : (before C ++ Element.tokensOf front ++
      t :: (Element.tokensOf back ++ behind C)).set (before C ++ Element.tokensOf front).length u =
        before C ++ (Element.tokensOf front ++ u :: (Element.tokensOf back ++ (behind C ++ []))) := by
    rw [List.set_append_right _ _ (Nat.le_refl _), Nat.sub_self, List.set_cons_zero]
    simp
  rw [mapTokens, htokens, hset, Frame.refill_plug rfl]

/-- A token of a node stands at `i` in document order, and in a slot. -/
def StandsAt (n : Node) (i : Nat) (slot : NodeId × Nat) : Prop :=
  ∃ C x front t back, n = plug C x ∧ x.elements = front ++ .token t :: back ∧
    slot = (x.id, (front.filterMap Element.token?).length) ∧
      i = (before C).length + (Element.tokensOf front).length

end Node

mutual

theorem Node.length_tokenSlots : ∀ n : Node, n.tokenSlots.length = n.tokens.length
  | ⟨id, _, _, es⟩ => Element.length_tokenSlotsIn id 0 es

theorem Element.length_tokenSlotsIn (id : NodeId) : ∀ (k : Nat) (es : List Element),
    (Element.tokenSlotsIn id k es).length = (Element.tokensOf es).length
  | _, [] => rfl
  | k, .token t :: es => by
    rw [Element.tokenSlotsIn, List.length_cons, Element.length_tokenSlotsIn id (k + 1) es,
      Element.tokensOf_token, List.length_cons]
  | k, .node n :: es => by
    rw [Element.tokenSlotsIn, List.length_append, n.length_tokenSlots,
      Element.length_tokenSlotsIn id k es, Element.tokensOf_node, List.length_append]

end

mutual

/-- The slots are those of the tokens, in document order. -/
theorem Node.standsAt : ∀ {n : Node} {i : Nat} {slot : NodeId × Nat},
    n.tokenSlots[i]? = some slot → n.StandsAt i slot
  | ⟨id, kind, span, es⟩, i, slot, h => by
    rcases Element.standsAt h with ⟨front, t, back, rfl, rfl, rfl⟩ |
      ⟨front, n, back, j, rfl, rfl, C, x, front', t, back', rfl, hx, rfl, rfl⟩
    · exact ⟨[], _, front, t, back, rfl, rfl, by rw [Nat.zero_add], (Nat.zero_add _).symm⟩
    · refine ⟨⟨id, kind, span, front, back⟩ :: C, x, front', t, back', rfl, hx, rfl, ?_⟩
      simp [Frame.before, Nat.add_assoc]

theorem Element.standsAt {id : NodeId} : ∀ {k : Nat} {es : List Element} {i : Nat}
    {slot : NodeId × Nat}, (Element.tokenSlotsIn id k es)[i]? = some slot →
      (∃ front t back, es = front ++ .token t :: back ∧
        slot = (id, k + (front.filterMap Element.token?).length) ∧
          i = (Element.tokensOf front).length) ∨
      ∃ front n back j, es = front ++ .node n :: back ∧ i = (Element.tokensOf front).length + j ∧
        n.StandsAt j slot
  | _, [], _, _, h => by cases h
  | k, .token t :: es, 0, slot, h => Or.inl ⟨[], t, es, rfl, (Option.some.inj h).symm, rfl⟩
  | k, .token t :: es, i + 1, slot, h => by
    have hrest : (Element.tokenSlotsIn id (k + 1) es)[i]? = some slot := h
    rcases Element.standsAt hrest with
      ⟨front, t', back, rfl, rfl, rfl⟩ | ⟨front, n, back, j, rfl, rfl, hn⟩
    · exact Or.inl ⟨.token t :: front, t', back, rfl, by simp [Element.token?]; omega, by simp⟩
    · exact Or.inr ⟨.token t :: front, n, back, j, rfl, by simp; omega, hn⟩
  | k, .node n :: es, i, slot, h => by
    rw [Element.tokenSlotsIn] at h
    by_cases hi : i < n.tokenSlots.length
    · rw [List.getElem?_append_left hi] at h
      exact Or.inr ⟨[], n, es, i, rfl, (Nat.zero_add i).symm, Node.standsAt h⟩
    · rw [List.getElem?_append_right (Nat.le_of_not_lt hi)] at h
      have hlength := n.length_tokenSlots
      rcases Element.standsAt h with ⟨front, t, back, rfl, rfl, hj⟩ |
        ⟨front, m, back, j, rfl, hj, hm⟩
      · exact Or.inl ⟨.node n :: front, t, back, rfl, rfl, by simp; omega⟩
      · exact Or.inr ⟨.node n :: front, m, back, j, rfl, by simp; omega, hm⟩

end

mutual

/-- The first token is the first one of its node. -/
theorem Node.head?_tokenSlots : ∀ n : Node, n.tokenSlots.head? = n.firstOwner?.map (·, 0)
  | ⟨id, _, _, es⟩ => Element.head?_tokenSlotsIn id es

theorem Element.head?_tokenSlotsIn (id : NodeId) : ∀ es : List Element,
    (Element.tokenSlotsIn id 0 es).head? = (Element.firstOwnerIn? id es).map (·, 0)
  | [] => rfl
  | .token _ :: _ => rfl
  | .node n :: es => by
    rw [Element.tokenSlotsIn, List.head?_append, n.head?_tokenSlots,
      Element.head?_tokenSlotsIn id es, Element.firstOwnerIn?, Option.map_or]

end

mutual

theorem Node.getLast?_tokenSlots : ∀ n : Node,
    n.tokenSlots.getLast?.map Prod.fst = n.lastOwner?
  | ⟨id, _, _, es⟩ => Element.getLast?_tokenSlotsIn id 0 es

theorem Element.getLast?_tokenSlotsIn (id : NodeId) : ∀ (k : Nat) (es : List Element),
    (Element.tokenSlotsIn id k es).getLast?.map Prod.fst = Element.lastOwnerIn? id es
  | _, [] => rfl
  | k, .token _ :: es => by
    have ih := Element.getLast?_tokenSlotsIn id (k + 1) es
    rw [Element.tokenSlotsIn, Element.lastOwnerIn?, ← ih, List.getLast?_cons]
    cases (Element.tokenSlotsIn id (k + 1) es).getLast? <;> rfl
  | k, .node n :: es => by
    rw [Element.tokenSlotsIn, Element.lastOwnerIn?, List.getLast?_append, Option.map_or,
      n.getLast?_tokenSlots, Element.getLast?_tokenSlotsIn id k es]

end

theorem Element.length_tokens_le : ∀ es : List Element,
    (es.filterMap Element.token?).length ≤ (Element.tokensOf es).length
  | [] => Nat.le_refl 0
  | .token _ :: es => by simpa [Element.token?] using Element.length_tokens_le es
  | .node n :: es => by
    rw [Element.tokensOf_node, List.length_append]
    exact Nat.le_add_left_of_le (Element.length_tokens_le es)

/-- The place of a token in what a node holds. -/
theorem Node.Carries.place {n : Node} {p : Payload} {front back : List Element} {t : Token}
    (h : n.Carries p) (hn : n.elements = front ++ .token t :: back) :
    ∃ write, p.places[(front.filterMap Element.token?).length]? = some ⟨t, write⟩ ∧
      ∀ u, (write u).node n.id n.span = { n with elements := front ++ .token u :: back } := by
  obtain ⟨hkind, helements⟩ := Node.carries_iff.mp h
  have hplace := p.places_node n.id n.span
  rw [← helements, hn, ← hkind] at hplace
  have hget := congrArg (·[(front.filterMap Element.token?).length]?) hplace
  simp only [List.getElem?_map, Element.placesOf_getElem?, Option.map_eq_some_iff] at hget
  obtain ⟨⟨u, write⟩, hget, heq⟩ := hget
  obtain ⟨rfl, hwrite⟩ := Place.mk.inj heq
  exact ⟨write, hget, congrFun hwrite⟩

namespace Payloads

open CssTree.Frame (plug)

variable {payloads : Payloads} {root n x : Node}

/-- All that the nodes of a tree hold is known. -/
def Describes (payloads : Payloads) (root : Node) : Prop :=
  ∀ x ∈ root.descendants, ∃ p, payloads x.id = some p ∧ x.Carries p

theorem exists_describes (hids : (root.descendants.map Node.id).Nodup)
    (h : ∀ x ∈ root.descendants, ∃ p, x.Carries p) :
    ∃ payloads : Payloads, payloads.Describes root := by
  have hinhabited : Nonempty Payload := ⟨.error []⟩
  choose! hold hhold using h
  refine ⟨fun id => (root.find? id).map hold, fun x hx => ⟨hold x, ?_, hhold x hx⟩⟩
  show (root.find? x.id).map hold = some (hold x)
  rw [Node.find?_of_mem hids hx, Option.map_some]

/-- What is written to the place in a slot is written to the token that stands in it. -/
theorem Describes.tokenAt? (h : payloads.Describes root)
    (hids : (root.descendants.map Node.id).Nodup) (hn : n ∈ root.descendants) (i : Nat) :
    (n.tokenSlots[i]?.bind payloads.tokenAt?).map (Place.map (· root)) =
      (n.placeAt? i).map (Place.map fun m => root.update n.id fun _ => m) := by
  cases hslot : n.tokenSlots[i]? with
  | none =>
    rw [List.getElem?_eq_none_iff, n.length_tokenSlots, ← List.getElem?_eq_none_iff] at hslot
    rw [Node.placeAt?, hslot]
    rfl
  | some slot =>
    obtain ⟨C, x, front, t, back, rfl, hx, rfl, rfl⟩ := Node.standsAt hslot
    obtain ⟨D, rfl⟩ := Node.exists_plug hn
    obtain ⟨p, hp, hcarries⟩ := h x (Node.mem_descendants_trans hn (Frame.mem_plug C x))
    obtain ⟨write, hget, hwrite⟩ := hcarries.place hx
    have hplace : payloads.tokenAt? (x.id, (front.filterMap Element.token?).length) =
        some ⟨t, fun u => Node.hold x.id (write u)⟩ := by
      rw [Payloads.tokenAt?, placeOf?, hp, Option.bind_some, hget]
      rfl
    rw [Node.placeAt?_plug hx, Option.bind_some, hplace, Option.map_some, Option.map_some]
    refine congrArg (fun write => some (Place.mk t write)) (funext fun u => ?_)
    have hinner := Frame.update_plug (Frame.apart_of_nodup (C := D ++ C) (n := x)
      (by rwa [Frame.plug_append])) fun n => (write u).node n.id n.span
    have houter := Frame.update_plug (Frame.apart_of_nodup hids) fun _ =>
      plug C { x with elements := front ++ .token u :: back }
    rw [Frame.plug_append, Frame.plug_append, hwrite] at hinner
    exact hinner.trans houter.symm

/-- The first token of a node stands in its first slot. -/
theorem firstToken?_eq (payloads : Payloads) (n : Node) :
    payloads.firstToken? n = n.tokenSlots[0]?.bind payloads.tokenAt? := by
  rw [← List.head?_eq_getElem?, n.head?_tokenSlots, firstToken?]
  cases n.firstOwner? with
  | none => rfl
  | some id =>
    show payloads.placeOf? id List.head? = payloads.placeOf? id fun places => places[0]?
    congr
    funext places
    exact List.head?_eq_getElem?

/-- The last token of a node stands in its last slot: no token of its owner follows. -/
theorem Describes.lastToken?_eq (h : payloads.Describes n) : payloads.lastToken? n =
    n.tokenSlots[n.tokens.length - 1]?.bind payloads.tokenAt? := by
  rw [lastToken?, ← n.getLast?_tokenSlots, List.getLast?_eq_getElem?, n.length_tokenSlots]
  cases hslot : n.tokenSlots[n.tokens.length - 1]? with
  | none => rfl
  | some slot =>
    obtain ⟨C, x, front, t, back, rfl, hx, rfl, hlast⟩ := Node.standsAt hslot
    obtain ⟨p, hp, hcarries⟩ := h x (Frame.mem_plug C x)
    have hback : back.filterMap Element.token? = [] := by
      have hle := Element.length_tokens_le back
      have hlength : (plug C x).tokens.length = (Frame.before C).length +
          (Element.tokensOf front).length + (Element.tokensOf back).length + 1 +
            (Frame.behind C).length := by
        obtain ⟨id, kind, span, es⟩ := x
        obtain rfl : es = front ++ .token t :: back := hx
        rw [Frame.tokens_plug, Node.tokens_mk]
        simp
        omega
      exact List.length_eq_zero_iff.mp (by omega)
    have hplaces : p.places.length = (front.filterMap Element.token?).length + 1 := by
      obtain ⟨-, helements⟩ := Node.carries_iff.mp hcarries
      rw [← List.length_map Place.token, p.tokens_places, ← helements, hx, List.filterMap_append,
        List.filterMap_cons, hback]
      simp [Element.token?]
    rw [Option.map_some, Option.bind_some, Option.bind_some, Payloads.tokenAt?, placeOf?, placeOf?,
      hp, Option.bind_some, Option.bind_some, List.getLast?_eq_getElem?, hplaces]
    rfl

/-- Every token of a tree is found by the slot it stands in, and the first and the last token of a
node by the nodes that have them; what is written there takes the place of that token. -/
structure Agrees (payloads : Payloads) (root : Node) : Prop where
  slots : ∀ i, (root.tokenSlots[i]?.bind payloads.tokenAt?).map (Place.map (· root)) =
    root.placeAt? i
  first : ∀ n ∈ root.descendants, (payloads.firstToken? n).map (Place.map (· root)) =
    (n.placeAt? 0).map (Place.map fun m => root.update n.id fun _ => m)
  last : ∀ n ∈ root.descendants, (payloads.lastToken? n).map (Place.map (· root)) =
    (n.placeAt? (n.tokens.length - 1)).map (Place.map fun m => root.update n.id fun _ => m)

theorem Describes.agrees (h : payloads.Describes root)
    (hids : (root.descendants.map Node.id).Nodup) : payloads.Agrees root := by
  refine ⟨fun i => ?_, fun n hn => ?_, fun n hn => ?_⟩
  · have hself : (fun m => root.update root.id fun _ => m) = fun m => m := by
      funext m
      cases root
      exact if_pos rfl
    rw [h.tokenAt? hids root.mem_descendants_self i, hself]
    exact Option.map_id'
  · rw [firstToken?_eq]
    exact h.tokenAt? hids hn 0
  · have hn' : payloads.Describes n := fun x hx => h x (Node.mem_descendants_trans hn hx)
    rw [hn'.lastToken?_eq]
    exact h.tokenAt? hids hn _

/-- The two ways to the tokens agree. The places in a payload, whatever its kind and its fields, are
those of the tokens among its elements, in the same order. In every tree whose nodes differ by their
ids the `i`-th token that is counted is the one that is found, and the first and the last token of a
node are those of all its tokens. Every tree that a session comes to is such a tree. -/
theorem views_agree :
    (∀ p : Payload, p.places.map Place.token = p.elements.filterMap Element.token? ∧
      ∀ id span, p.places.map (Place.map (Payload.node id span)) =
        Element.placesOf p.elements fun es => ⟨id, p.kind, span, es⟩) ∧
    (∀ (root : Node) (payloads : Payloads), (root.descendants.map Node.id).Nodup →
      payloads.Describes root → payloads.Agrees root) ∧
    ∀ (production : Production) (config : Config) (t : Text) (calls : List Call),
      let root := (Session.run ⟨Tree.parse production config t, false⟩ calls).tree.root
      (root.descendants.map Node.id).Nodup ∧ ∃ payloads : Payloads, payloads.Describes root := by
  refine ⟨fun p => ⟨p.tokens_places, fun id span => p.places_node id span⟩,
    fun root payloads hids h => h.agrees hids, fun production config t calls => ?_⟩
  have hsound := Session.sound_run (s := ⟨Tree.parse production config t, false⟩)
    (Tree.sound_parse production config t) calls
  have hproper := Session.proper_run (s := ⟨Tree.parse production config t, false⟩)
    (Tree.sound_parse production config t)
    (fun x hx => (Session.orderly_parse production config t x hx).1) calls
  exact ⟨hsound.nodup, exists_describes hsound.nodup fun x hx => (hproper x hx).carries⟩

end Payloads

end CssTree
