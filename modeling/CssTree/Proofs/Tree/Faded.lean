import CssTree.Proofs.Tree.Context

namespace CssTree

/-- A token without its place. -/
def Token.faded (t : Token) : Token := t.mapSpans fun _ => default

/-- A node without the places of all that it holds. -/
def Node.faded (n : Node) : Node := n.pushed fun _ => default

mutual

/-- A node under other names. -/
def Node.mapIds (ρ : NodeId → NodeId) : Node → Node
  | ⟨id, kind, span, es⟩ => ⟨ρ id, kind, span, Element.mapIdsAll ρ es⟩

def Element.mapIdsAll (ρ : NodeId → NodeId) : List Element → List Element
  | [] => []
  | .token t :: es => .token t :: Element.mapIdsAll ρ es
  | .node n :: es => .node (n.mapIds ρ) :: Element.mapIdsAll ρ es

end

theorem Node.mapIds_mk (ρ : NodeId → NodeId) (id : NodeId) (kind : NodeKind) (span : Span)
    (es : List Element) :
    (Node.mk id kind span es).mapIds ρ = ⟨ρ id, kind, span, Element.mapIdsAll ρ es⟩ := rfl

theorem Node.faded_mk (id : NodeId) (kind : NodeKind) (span : Span) (es : List Element) :
    (Node.mk id kind span es).faded =
      ⟨id, kind, default, Element.mapSpansAll (fun _ => default) es⟩ := rfl

namespace Element

@[simp] theorem mapIdsAll_nil (ρ : NodeId → NodeId) : mapIdsAll ρ [] = [] := rfl

@[simp] theorem mapIdsAll_token (ρ : NodeId → NodeId) (t : Token) (es : List Element) :
    mapIdsAll ρ (.token t :: es) = .token t :: mapIdsAll ρ es := rfl

@[simp] theorem mapIdsAll_node (ρ : NodeId → NodeId) (n : Node) (es : List Element) :
    mapIdsAll ρ (.node n :: es) = .node (n.mapIds ρ) :: mapIdsAll ρ es := rfl

@[simp] theorem mapSpansAll_nil (f : Span → Span) : mapSpansAll f [] = [] := rfl

@[simp] theorem mapSpansAll_token (f : Span → Span) (t : Token) (es : List Element) :
    mapSpansAll f (.token t :: es) = .token (t.mapSpans f) :: mapSpansAll f es := rfl

@[simp] theorem mapSpansAll_node (f : Span → Span) (n : Node) (es : List Element) :
    mapSpansAll f (.node n :: es) = .node (n.mapSpans f) :: mapSpansAll f es := rfl

end Element

mutual

@[simp] theorem Node.tokens_mapIds (ρ : NodeId → NodeId) : ∀ n : Node, (n.mapIds ρ).tokens = n.tokens
  | ⟨_, _, _, es⟩ => Element.tokensOf_mapIdsAll ρ es

@[simp] theorem Element.tokensOf_mapIdsAll (ρ : NodeId → NodeId) : ∀ es : List Element,
    Element.tokensOf (Element.mapIdsAll ρ es) = Element.tokensOf es
  | [] => rfl
  | .token t :: es => by
    rw [Element.mapIdsAll_token, Element.tokensOf_token, Element.tokensOf_token,
      Element.tokensOf_mapIdsAll ρ es]
  | .node n :: es => by
    rw [Element.mapIdsAll_node, Element.tokensOf_node, Element.tokensOf_node,
      Node.tokens_mapIds ρ n, Element.tokensOf_mapIdsAll ρ es]

end

mutual

theorem Node.Strung.mapIds (ρ : NodeId → NodeId) :
    ∀ {p : Position} {n : Node}, n.Strung p → (n.mapIds ρ).Strung p
  | _, ⟨_, _, _, es⟩, h => ⟨by rw [Element.tokensOf_mapIdsAll]; exact h.1,
      Element.StrungAll.mapIdsAll ρ h.2⟩

theorem Element.StrungAll.mapIdsAll (ρ : NodeId → NodeId) : ∀ {p : Position} {es : List Element},
    Element.StrungAll p es → Element.StrungAll p (Element.mapIdsAll ρ es)
  | _, [], _ => trivial
  | _, .token _ :: _, h => ⟨h.1, Element.StrungAll.mapIdsAll ρ h.2⟩
  | p, .node n :: es, h => by
    refine ⟨Node.Strung.mapIds ρ h.1, ?_⟩
    rw [Node.tokens_mapIds]
    exact Element.StrungAll.mapIdsAll ρ h.2

end

mutual

theorem Node.faded_mapIds (ρ : NodeId → NodeId) : ∀ n : Node,
    (n.mapIds ρ).faded = n.faded.mapIds ρ
  | ⟨_, _, _, es⟩ => by
    rw [Node.mapIds_mk, Node.faded_mk, Node.faded_mk, Node.mapIds_mk, Element.faded_mapIdsAll ρ es]

theorem Element.faded_mapIdsAll (ρ : NodeId → NodeId) : ∀ es : List Element,
    Element.mapSpansAll (fun _ => default) (Element.mapIdsAll ρ es) =
      Element.mapIdsAll ρ (Element.mapSpansAll (fun _ => default) es)
  | [] => rfl
  | .token t :: es => by
    rw [Element.mapIdsAll_token, Element.mapSpansAll_token, Element.mapSpansAll_token,
      Element.mapIdsAll_token, Element.faded_mapIdsAll ρ es]
  | .node n :: es => by
    have hn : (n.mapIds ρ).mapSpans (fun _ => default) = (n.mapSpans fun _ => default).mapIds ρ :=
      Node.faded_mapIds ρ n
    rw [Element.mapIdsAll_node, Element.mapSpansAll_node, Element.mapSpansAll_node,
      Element.mapIdsAll_node, hn, Element.faded_mapIdsAll ρ es]

end

/-- Tokens that say the same and are written from the same place. -/
theorem Token.Strung.eq {p : Position} {t u : Token} (ht : Strung p [t]) (hu : Strung p [u])
    (h : t.faded = u.faded) : t = u := by
  have hlexemes : (lexemesOf [t]).map Lexeme.faded = (lexemesOf [u]).map Lexeme.faded := by
    have hmap : ∀ v : Token, (lexemesOf [v]).map Lexeme.faded = lexemesOf [v.faded] :=
      fun v => (lexemesOf_mapSpans (fun _ => default) [v]).symm
    rw [hmap, hmap, h]
  have hsame : lexemesOf [t] = lexemesOf [u] := Lexeme.Strung.eq ht hu hlexemes
  simp only [lexemesOf_cons, lexemesOf_nil, List.append_nil, lexemes] at hsame
  have hlength : t.leading.length = u.leading.length := by
    have hleading := congrArg (·.leading.length) h
    simpa [faded] using hleading
  obtain ⟨hleading, hrest⟩ := List.append_inj hsame hlength
  obtain ⟨hcore, htrailing⟩ := List.cons_eq_cons.mp hrest
  have hvalue : t.value = u.value := congrArg (·.value) h
  cases t
  cases u
  simp_all

mutual

/-- Nodes that say the same and are written from the same place. -/
theorem Node.Strung.eq : ∀ {p : Position} {m n : Node}, m.Strung p → n.Strung p →
    m.faded = n.faded → m = n
  | p, ⟨id, kind, span, es⟩, ⟨id', kind', span', fs⟩, hm, hn, h => by
    rw [Node.faded_mk, Node.faded_mk, Node.mk.injEq] at h
    obtain ⟨rfl, rfl, -, hall⟩ := h
    obtain rfl : es = fs := Element.StrungAll.eq hm.2 hn.2 hall
    rw [hm.1, hn.1]

theorem Element.StrungAll.eq : ∀ {p : Position} {es fs : List Element},
    Element.StrungAll p es → Element.StrungAll p fs →
      Element.mapSpansAll (fun _ => default) es = Element.mapSpansAll (fun _ => default) fs →
        es = fs
  | _, [], [], _, _, _ => rfl
  | _, .token t :: es, .token u :: fs, hes, hfs, h => by
    obtain ⟨htoken, hrest⟩ := List.cons_eq_cons.mp h
    obtain rfl : t = u := Token.Strung.eq hes.1 hfs.1 (Element.token.inj htoken)
    rw [Element.StrungAll.eq hes.2 hfs.2 hrest]
  | _, .node m :: es, .node n :: fs, hes, hfs, h => by
    obtain ⟨hnode, hrest⟩ := List.cons_eq_cons.mp h
    obtain rfl : m = n := Node.Strung.eq hes.1 hfs.1 (Element.node.inj hnode)
    rw [Element.StrungAll.eq hes.2 hfs.2 hrest]
  | _, [], .token _ :: _, _, _, h => by cases h
  | _, [], .node _ :: _, _, _, h => by cases h
  | _, .token _ :: _, [], _, _, h => by cases h
  | _, .node _ :: _, [], _, _, h => by cases h
  | _, .token _ :: _, .node _ :: _, _, _, h => by cases h
  | _, .node _ :: _, .token _ :: _, _, _, h => by cases h

end

namespace Node

variable {m n : Node}

@[simp] theorem id_faded (n : Node) : n.faded.id = n.id := id_pushed _ n

@[simp] theorem faded_moved (onNode : NodeId → Span → Span) (onToken : Span → Span) (n : Node) :
    (n.moved onNode onToken).faded = n.faded := pushed_moved _ _ _ n

@[simp] theorem faded_respan (n : Node) : n.respan.faded = n.faded := by
  have hunspanned : ∀ n : Node, n.faded = n.unspanned.faded := fun n => (faded_moved _ _ n).symm
  rw [hunspanned, unspanned_respan, ← hunspanned]

theorem tokens_faded (n : Node) : n.faded.tokens = n.tokens.map Token.faded := tokens_pushed _ n

theorem ids_faded (n : Node) : n.faded.descendants.map id = n.descendants.map id := ids_moved _ _ n

end Node

namespace Frame

/-- A frame without its place. -/
def faded (F : Frame) : Frame := F.pushed (fun _ => default) fun _ => default

theorem faded_plug (C : List Frame) (n : Node) : (plug C n).faded = plug (C.map faded) n.faded :=
  moved_plug_all C n fun _ => default

theorem faded_pushed (around other : Span → Span) (F : Frame) :
    (F.pushed around other).faded = F.faded := by
  have hall : ∀ es, Element.mapSpansAll (fun _ => default) (Element.mapSpansAll other es) =
      Element.mapSpansAll (fun _ => default) es :=
    fun es => Element.moveSpansOf_moveSpansOf _ _ _ _ es
  rw [faded, faded, pushed, pushed, pushed]
  simp only [hall]

theorem map_faded_pushed (around other : Span → Span) (C : List Frame) :
    (C.map (pushed around other)).map faded = C.map faded := by
  rw [List.map_map]
  exact List.map_congr_left fun F _ => faded_pushed around other F

end Frame

end CssTree
