import LsmGraph.Snb.Import

/-! # Forward and reverse edges

Every edge of an import or an update is inserted together with its mirror image: an edge of a label
other than `Knows` with the reverse edge of the negated type, a `Knows` edge with the `Knows` edge in
the opposite direction. So the set of edges of a graph and the map of properties are closed under
`Mirror` in every graph that imports and updates can build (`mirrored_of_imports`). -/

namespace LsmGraph

open KeyedSort AdjacencyBuilder

/-! ## Mirror images -/

/-- An edge as the maps of the graph know it. -/
abbrev EdgeTriple := VertexId × EdgeType × VertexId

def EdgeInsertion.triple (e : EdgeInsertion) : EdgeTriple := (e.src, e.edgeType, e.dst)

/-- The edge that has to be there with an edge, and the other way round. -/
inductive Mirror : EdgeTriple → EdgeTriple → Prop
  | reverse (u v : VertexId) (L : EdgeLabel) (hL : L ≠ .knows) :
      Mirror (u, L.asI32, v) (v, -L.asI32, u)
  | knows (u v : VertexId) : Mirror (u, EdgeLabel.knows.asI32, v) (v, EdgeLabel.knows.asI32, u)

/-- A set of edges has with every edge its mirror image. -/
def MirroredSet (E : Set EdgeTriple) : Prop := ∀ a b, Mirror a b → (a ∈ E ↔ b ∈ E)

/-- A map on edges agrees on every edge and its mirror image. -/
def MirroredMap (props : EdgePropMap) : Prop := ∀ a b, Mirror a b → props a = props b

theorem asI32_inj {L L' : EdgeLabel} : L.asI32 = L'.asI32 ↔ L = L' := by
  cases L <;> cases L' <;> decide

theorem asI32_ne_neg (L L' : EdgeLabel) : L.asI32 ≠ -L'.asI32 := by
  cases L <;> cases L' <;> decide

theorem neg_asI32_inj {L L' : EdgeLabel} : -L.asI32 = -L'.asI32 ↔ L = L' := by
  cases L <;> cases L' <;> decide

theorem MirroredSet.union {E F : Set EdgeTriple} (hE : MirroredSet E) (hF : MirroredSet F) :
    MirroredSet {a | a ∈ E ∨ a ∈ F} := fun a b hab => or_congr (hE a b hab) (hF a b hab)

/-! ## One edge and its mirror image -/

/-- The insertions of one edge: all with the same property, and closed under mirror images. -/
structure IsUnit (es : List EdgeInsertion) : Prop where
  mirrored : MirroredSet {a | a ∈ es.map EdgeInsertion.triple}
  prop_eq : ∃ prop, ∀ e ∈ es, e.prop = prop

/-- A sequence of insertions, one edge after the other. -/
inductive Balanced : List EdgeInsertion → Prop
  | nil : Balanced []
  | append {es rest : List EdgeInsertion} (hes : IsUnit es) (hrest : Balanced rest) :
      Balanced (es ++ rest)

theorem Balanced.concat {es es' : List EdgeInsertion} (h : Balanced es) (h' : Balanced es') :
    Balanced (es ++ es') := by
  induction h with
  | nil => exact h'
  | append hes _ ih =>
      rw [List.append_assoc]
      exact .append hes ih

theorem Balanced.flatMap {α : Type} {l : List α} {f : α → List EdgeInsertion}
    (h : ∀ a ∈ l, Balanced (f a)) : Balanced (l.flatMap f) := by
  induction l with
  | nil => exact .nil
  | cons a l ih =>
      rw [List.flatMap_cons]
      exact (h a List.mem_cons_self).concat (ih fun b hb => h b (List.mem_cons_of_mem _ hb))

/-- A forward and its reverse edge. -/
theorem mirrored_forward_reverse (s d : VertexId) {L : EdgeLabel} (hL : L ≠ .knows) :
    MirroredSet {a | a ∈ [(s, L.asI32, d), (d, -L.asI32, s)]} := by
  intro a b hab
  simp only [Set.mem_ofPred_eq, List.mem_cons, List.not_mem_nil, or_false]
  cases hab with
  | reverse u v L' hL' =>
      simp only [Prod.mk.injEq, asI32_inj, neg_asI32_inj, asI32_ne_neg, (asI32_ne_neg _ _).symm]
      tauto
  | knows u v => simp [asI32_inj, asI32_ne_neg, hL.symm]

/-- The two directions of a `Knows` edge. The edge of the negated type is nobody's mirror image. -/
theorem mirrored_knows (s d : VertexId) :
    MirroredSet {a | a ∈ [(s, EdgeLabel.knows.asI32, d), (d, -EdgeLabel.knows.asI32, s),
      (d, EdgeLabel.knows.asI32, s)]} := by
  intro a b hab
  simp only [Set.mem_ofPred_eq, List.mem_cons, List.not_mem_nil, or_false]
  cases hab with
  | reverse u v L' hL' =>
      simp [asI32_inj, asI32_ne_neg, (asI32_ne_neg _ _).symm, hL']
  | knows u v =>
      simp only [Prod.mk.injEq, asI32_ne_neg, true_and, false_and, and_false, false_or]
      tauto

/-- A call gives all its edges the one property. -/
theorem EdgeCall.prop_of_mem {c : EdgeCall} {e : EdgeInsertion} (he : e ∈ c.insertions) :
    e.prop = c.prop := by
  rw [EdgeCall.insertions] at he
  rcases List.mem_cons.mp he with rfl | he
  · rfl
  · split at he
    · rw [List.mem_singleton.mp he]
    · exact absurd he List.not_mem_nil

theorem prop_of_mem_edgeCalls {src dst : VertexId} {L : EdgeLabel} {prop : EdgeProp}
    {bidirectional : Bool} {c : EdgeCall} (hc : c ∈ edgeCalls src dst L prop bidirectional) :
    c.prop = prop := by
  rw [edgeCalls] at hc
  rcases List.mem_cons.mp hc with rfl | hc
  · rfl
  · split at hc
    · rw [List.mem_singleton.mp hc]
    · exact absurd hc List.not_mem_nil

/-- **Every call site inserts whole units**, provided it asks for both positive directions just for
`Knows`. -/
theorem isUnit_edgeCalls (src dst : VertexId) {L : EdgeLabel} (prop : EdgeProp) {bidirectional : Bool}
    (h : bidirectional = true ↔ L = .knows) :
    IsUnit (insertionsOf (edgeCalls src dst L prop bidirectional)) := by
  refine ⟨?_, prop, fun e he => ?_⟩
  · -- two calls for `Knows`, one for every other label
    cases bidirectional with
    | false => exact mirrored_forward_reverse src dst fun hL => Bool.noConfusion (h.mpr hL)
    | true =>
        obtain rfl := h.mp rfl
        exact mirrored_knows src dst
  · obtain ⟨c, hc, he⟩ := List.mem_flatMap.mp he
    exact (EdgeCall.prop_of_mem he).trans (prop_of_mem_edgeCalls hc)

theorem balanced_edgeCalls (src dst : VertexId) {L : EdgeLabel} (prop : EdgeProp)
    {bidirectional : Bool} (h : bidirectional = true ↔ L = .knows) :
    Balanced (insertionsOf (edgeCalls src dst L prop bidirectional)) := by
  rw [← List.append_nil (insertionsOf _)]
  exact .append (isUnit_edgeCalls src dst prop h) .nil

theorem insertionsOf_append (calls calls' : List EdgeCall) :
    insertionsOf (calls ++ calls') = insertionsOf calls ++ insertionsOf calls' := List.flatMap_append

theorem insertionsOf_flatMap {α : Type} (l : List α) (f : α → List EdgeCall) :
    insertionsOf (l.flatMap f) = l.flatMap fun a => insertionsOf (f a) := List.flatMap_assoc

/-- Only the first edge file is imported in both directions. -/
theorem edgeFiles_bidirectional :
    ∀ spec ∈ edgeFiles, spec.bidirectionalPositive = true ↔ spec.edgeLabel = .knows := by
  decide

/-- **A full import** inserts unit after unit. -/
theorem balanced_fullImport (rows : EdgeFileSpec → List EdgeRow) :
    Balanced (insertionsOf (fullImportCalls rows)) := by
  rw [fullImportCalls, insertionsOf_flatMap]
  refine Balanced.flatMap fun spec hspec => ?_
  rw [insertionsOf_flatMap]
  refine Balanced.flatMap fun row _ => ?_
  rw [EdgeFileSpec.rowCalls]
  split
  · exact balanced_edgeCalls _ _ _ (edgeFiles_bidirectional spec hspec)
  · exact .nil

theorem balanced_ownEdge (src : VertexId) (dstLabel : VertexLabel) {L : EdgeLabel} (hL : L ≠ .knows)
    (dst : Int64) (prop : EdgeProp) : Balanced (insertionsOf (ownEdge src dstLabel L dst prop)) :=
  balanced_edgeCalls _ _ _ (iff_of_false Bool.false_ne_true hL)

/-- The edges of a new vertex to a list of others. -/
theorem balanced_ownEdges {α : Type} (l : List α) (src : VertexId) (dstLabel : VertexLabel)
    {L : EdgeLabel} (hL : L ≠ .knows) (dst : α → Int64) (prop : α → EdgeProp) :
    Balanced (insertionsOf (l.flatMap fun a => ownEdge src dstLabel L (dst a) (prop a))) := by
  rw [insertionsOf_flatMap]
  exact Balanced.flatMap fun a _ => balanced_ownEdge src dstLabel hL (dst a) (prop a)

/-- **Every update** inserts unit after unit. -/
theorem balanced_update (update : SnbUpdate) : Balanced (insertionsOf update.calls) := by
  cases update with
  | addPerson id place tags studyAt workAt =>
      rw [SnbUpdate.calls, applyAddPerson, insertionsOf_append, insertionsOf_append,
        insertionsOf_append]
      refine ((Balanced.concat ?_ ?_).concat ?_).concat ?_
      · exact balanced_ownEdge _ _ (by decide) _ _
      · exact balanced_ownEdges tags _ _ (by decide) (fun x => x) fun _ => .empty
      · exact balanced_ownEdges studyAt _ _ (by decide) Prod.fst fun org => .i32 org.2
      · exact balanced_ownEdges workAt _ _ (by decide) Prod.fst fun org => .i32 org.2
  | likePost person post date => exact balanced_edgeCalls _ _ _ (by decide)
  | likeComment person comment date => exact balanced_edgeCalls _ _ _ (by decide)
  | addForum id moderator tags =>
      rw [SnbUpdate.calls, applyAddForum, insertionsOf_append]
      refine Balanced.concat ?_ ?_
      · exact balanced_ownEdge _ _ (by decide) _ _
      · exact balanced_ownEdges tags _ _ (by decide) (fun x => x) fun _ => .empty
  | joinForum forum person date => exact balanced_edgeCalls _ _ _ (by decide)
  | addPost id creator forum place tags =>
      rw [SnbUpdate.calls, applyAddPost, insertionsOf_append, insertionsOf_append,
        insertionsOf_append]
      refine ((Balanced.concat ?_ ?_).concat ?_).concat ?_
      · exact balanced_ownEdge _ _ (by decide) _ _
      · exact balanced_edgeCalls _ _ _ (by decide)
      · exact balanced_ownEdge _ _ (by decide) _ _
      · exact balanced_ownEdges tags _ _ (by decide) (fun x => x) fun _ => .empty
  | addComment id creator place replyOfPost replyOfComment tags =>
      rw [SnbUpdate.calls, applyAddComment, insertionsOf_append, insertionsOf_append,
        insertionsOf_append, insertionsOf_append]
      refine (((Balanced.concat ?_ ?_).concat ?_).concat ?_).concat ?_
      · exact balanced_ownEdge _ _ (by decide) _ _
      · exact balanced_ownEdge _ _ (by decide) _ _
      · exact balanced_ownEdges replyOfPost.toList _ _ (by decide) (fun x => x) fun _ => .empty
      · exact balanced_ownEdges replyOfComment.toList _ _ (by decide) (fun x => x) fun _ => .empty
      · exact balanced_ownEdges tags _ _ (by decide) (fun x => x) fun _ => .empty
  | know person1 person2 date => exact balanced_edgeCalls _ _ _ (by decide)

/-! ## What insertions do -/

/-- The edges an adjacency lists. -/
def adjacencyEdges (adjacency : Adjacency) : Set EdgeTriple :=
  {a | a.2.2 ∈ (adjacency (a.1, a.2.1)).getD []}

/-- No list of the adjacency has a destination twice. -/
def NoDuplicates (adjacency : Adjacency) : Prop := ∀ key, ((adjacency key).getD []).Nodup

theorem mem_dstsUnder {key : AdjacencyKey} {es : List EdgeInsertion} {d : VertexId} :
    d ∈ dstsUnder key es ↔ (key.1, key.2, d) ∈ es.map EdgeInsertion.triple := by
  rw [dstsUnder, List.mem_map, List.mem_map]
  simp only [List.mem_filter, decide_eq_true_iff, EdgeInsertion.key, EdgeInsertion.triple,
    Prod.ext_iff, and_assoc]

/-- A balanced sequence inserts a mirrored set of edges. -/
theorem Balanced.mirrored {es : List EdgeInsertion} (h : Balanced es) :
    MirroredSet {a | a ∈ es.map EdgeInsertion.triple} := by
  induction h with
  | nil => exact fun a b _ => iff_of_false List.not_mem_nil List.not_mem_nil
  | append hes _ ih =>
      simp only [List.map_append, List.mem_append]
      exact hes.mirrored.union ih

/-- The properties after insertions with one property. -/
theorem foldl_insertProp {es : List EdgeInsertion} {prop : EdgeProp} (h : ∀ e ∈ es, e.prop = prop)
    (props : EdgePropMap) (a : EdgeTriple) :
    es.foldl (fun props e => insertProp props e.src e.edgeType e.dst e.prop) props a =
      if prop ≠ .empty ∧ a ∈ es.map EdgeInsertion.triple then some prop else props a := by
  induction es generalizing props with
  | nil => simp
  | cons e es ih =>
      rw [List.foldl_cons, ih fun e' he' => h e' (List.mem_cons_of_mem _ he'), List.map_cons,
        h e List.mem_cons_self, insertProp]
      by_cases hempty : prop = .empty
      · simp [hempty]
      · by_cases ha : a = e.triple
        · subst ha
          simp [hempty, EdgeInsertion.triple]
        · have hne : a ≠ (e.src, e.edgeType, e.dst) := ha
          simp [hempty, ha, Function.update_of_ne hne]

/-- **A balanced sequence keeps the properties mirrored**, also where an edge is inserted again. -/
theorem Balanced.props {es : List EdgeInsertion} (h : Balanced es) {props : EdgePropMap}
    (hprops : MirroredMap props) :
    MirroredMap (es.foldl (fun props e => insertProp props e.src e.edgeType e.dst e.prop) props) := by
  induction h generalizing props with
  | nil => exact hprops
  | append hes _ ih =>
      rw [List.foldl_append]
      refine ih fun a b hab => ?_
      -- a unit sets the property of an edge and of its mirror, or of neither
      obtain ⟨prop, hprop⟩ := hes.prop_eq
      rw [foldl_insertProp hprop, foldl_insertProp hprop, hprops a b hab]
      exact if_congr (and_congr_right fun _ => hes.mirrored a b hab) rfl rfl

/-- What a builder lists after recording edges: what it had, and these. -/
theorem mem_adjacencyEdges_build (b : AdjacencyBuilder) (ts : Timestamp) (es : List EdgeInsertion)
    (a : EdgeTriple) :
    a ∈ adjacencyEdges (b.recordEdges ts es).build ↔
      a.2.2 ∈ ((b.grouped (a.1, a.2.1)).getD []).map Prod.fst ∨ a ∈ es.map EdgeInsertion.triple := by
  have hmem : ∀ (entries : List (VertexId × Timestamp)) (d : VertexId),
      d ∈ buildGroup entries ↔ d ∈ entries.map Prod.fst := fun entries d => by
    rw [mem_buildGroup, List.mem_map]
    simp
  rw [adjacencyEdges, Set.mem_ofPred_eq, getD_build, hmem, getD_grouped_recordEdges, List.map_append,
    List.mem_append, map_fst_stamped, mem_dstsUnder]

theorem noDuplicates_build (b : AdjacencyBuilder) : NoDuplicates b.build := fun key => by
  rw [getD_build]
  exact nodup_buildGroup _

/-- What an open graph lists after insertions: what it had, and these. -/
theorem mem_adjacencyEdges_insertEdges (g : SnbGraph) (es : List EdgeInsertion) (a : EdgeTriple) :
    a ∈ adjacencyEdges (g.insertEdges es).adjacency ↔
      a ∈ adjacencyEdges g.adjacency ∨ a ∈ es.map EdgeInsertion.triple := by
  rw [adjacencyEdges, Set.mem_ofPred_eq, getD_adjacency_insertEdges, foldl_appendNew,
    List.mem_append, newDsts, mem_firstByKey_id, mem_dstsUnder]
  by_cases hold : a.2.2 ∈ (g.adjacency (a.1, a.2.1)).getD []
  · exact iff_of_true (Or.inl hold) (Or.inl hold)
  · simp [adjacencyEdges, hold]

/-! ## Graphs and stores -/

/-- Edges and properties of a graph are mirrored, and no list has a destination twice. -/
structure SnbGraph.Mirrored (g : SnbGraph) : Prop where
  edges : MirroredSet (adjacencyEdges g.adjacency)
  props : MirroredMap g.edgeProps
  nodup : NoDuplicates g.adjacency

/-- **Step lemma** for an open graph. -/
theorem SnbGraph.Mirrored.insertEdges {g : SnbGraph} (h : g.Mirrored) {es : List EdgeInsertion}
    (hes : Balanced es) : (g.insertEdges es).Mirrored where
  edges a b hab := by
    rw [mem_adjacencyEdges_insertEdges, mem_adjacencyEdges_insertEdges]
    exact or_congr (h.edges a b hab) (hes.mirrored a b hab)
  props := by
    rw [edgeProps_insertEdges]
    exact hes.props h.props
  nodup key := by
    rw [getD_adjacency_insertEdges, foldl_appendNew]
    refine (h.nodup key).append (nodup_firstByKey_id _ _) fun d hd hd' => ?_
    exact (mem_firstByKey_id.mp hd').2 hd

/-- The graph that the files of a store make is mirrored. -/
structure SnbStore.Mirrored (s : SnbStore) : Prop where
  edges : ∀ a ∈ s.cache, MirroredSet (adjacencyEdges a)
  props : MirroredMap (loadEdgeProps s.edgeProps)
  nodup : ∀ a ∈ s.cache, NoDuplicates a

theorem SnbStore.mirrored_new : new.Mirrored where
  edges a ha := absurd ha (by simp [new])
  props a b _ := rfl
  nodup a ha := absurd ha (by simp [new])

/-- A successful import. -/
inductive ImportRun
  | full (clock : Timestamp) (rows : EdgeFileSpec → List EdgeRow)
  | updates (clock : Timestamp) (updates : List SnbUpdate)

def SnbStore.afterRun (s : SnbStore) : ImportRun → SnbStore
  | .full clock rows => importSnbFull clock rows
  | .updates clock updates => s.importSnbUpdates clock updates

theorem mem_startBuilder (cache : Option Adjacency) (clock : Timestamp) (a : EdgeTriple) :
    a.2.2 ∈ (((SnbStore.startBuilder cache clock).grouped (a.1, a.2.1)).getD []).map Prod.fst ↔
      ∃ adjacency ∈ cache, a ∈ adjacencyEdges adjacency := by
  cases cache with
  | none => simp [SnbStore.startBuilder, empty]
  | some adjacency =>
      simp only [SnbStore.startBuilder, getD_grouped_fromAdjacency, map_fst_existingEntries,
        Option.mem_def, Option.some.injEq, exists_eq_left']
      rfl

/-- **Step lemma** for a store. -/
theorem SnbStore.Mirrored.afterRun {s : SnbStore} (h : s.Mirrored) (r : ImportRun) :
    (s.afterRun r).Mirrored := by
  cases r with
  | full clock rows =>
      -- the builder starts empty, whatever the store held
      have hes := balanced_fullImport rows
      refine ⟨fun a ha => ?_, ?_, fun a ha => ?_⟩
      · rw [← Option.some.inj ha]
        intro e e' hee'
        rw [mem_adjacencyEdges_build, mem_adjacencyEdges_build]
        refine or_congr ?_ (hes.mirrored e e' hee')
        exact iff_of_false (by simp [AdjacencyBuilder.empty]) (by simp [AdjacencyBuilder.empty])
      · rw [SnbStore.afterRun, importSnbFull, loadEdgeProps_foldl]
        exact hes.props fun _ _ _ => rfl
      · rw [← Option.some.inj ha]
        exact noDuplicates_build _
  | updates clock updates =>
      -- the builder starts from the cache
      have hes : Balanced (insertionsOf (updates.flatMap SnbUpdate.calls)) := by
        rw [insertionsOf_flatMap]
        exact Balanced.flatMap fun update _ => balanced_update update
      refine ⟨fun a ha => ?_, ?_, fun a ha => ?_⟩
      · rw [← Option.some.inj ha]
        intro e e' hee'
        rw [mem_adjacencyEdges_build, mem_adjacencyEdges_build, mem_startBuilder, mem_startBuilder]
        refine or_congr (exists_congr fun adjacency => and_congr_right fun hadjacency => ?_)
          (hes.mirrored e e' hee')
        exact h.edges adjacency hadjacency e e' hee'
      · rw [SnbStore.afterRun, importSnbUpdates, loadEdgeProps_foldl]
        exact hes.props h.props
      · rw [← Option.some.inj ha]
        exact noDuplicates_build _

/-- A store after a sequence of imports is mirrored, and has a cache if there was an import. -/
theorem SnbStore.mirrored_imports (runs : List ImportRun) :
    (runs.foldl SnbStore.afterRun new).Mirrored ∧
      (runs ≠ [] → (runs.foldl SnbStore.afterRun new).cache ≠ none) := by
  induction runs using List.reverseRecOn with
  | nil => exact ⟨mirrored_new, fun h => absurd rfl h⟩
  | append_singleton runs r ih =>
      rw [List.foldl_append, List.foldl_cons, List.foldl_nil]
      refine ⟨ih.1.afterRun r, fun _ => ?_⟩
      cases r <;> exact Option.some_ne_none _

/-- A graph opened from the files of imports. -/
theorem SnbGraph.mirrored_open {s : SnbStore} (h : s.Mirrored) (hcache : s.cache ≠ none)
    (scan : List EdgeRecord) : (SnbGraph.open s scan).Mirrored := by
  obtain ⟨adjacency, hadjacency⟩ := Option.ne_none_iff_exists'.mp hcache
  have hopen : SnbGraph.open s scan = ⟨loadEdgeProps s.edgeProps, adjacency⟩ := by
    rw [SnbGraph.open, hadjacency]
  rw [hopen]
  exact ⟨h.edges adjacency hadjacency, h.props, h.nodup adjacency hadjacency⟩

/-- **Forward and reverse edges are mirror images.** Open a store that any sequence of imports has
built, and apply any sequence of HTTP updates. Then for every label other than `Knows` a vertex is
among the out-neighbours of another iff that one is among its in-neighbours, with the same property
on both edges; `Knows` edges go both ways with the same property; and no list has a vertex twice. -/
theorem mirrored_of_imports (runs : List ImportRun) (hruns : runs ≠ []) (scan : List EdgeRecord)
    (updates : List SnbUpdate) :
    let g := updates.foldl SnbGraph.runDgsHttpUpdate
      (SnbGraph.open (runs.foldl SnbStore.afterRun .new) scan)
    (∀ L, L ≠ .knows → ∀ u v,
        (v ∈ g.outNeighborsCached u L ↔ u ∈ g.inNeighborsCached v L) ∧
          g.edgePropByType u L.asI32 v = g.edgePropByType v (-L.asI32) u) ∧
      (∀ u v,
        (v ∈ g.outNeighborsCached u .knows ↔ u ∈ g.outNeighborsCached v .knows) ∧
          g.edgePropByType u EdgeLabel.knows.asI32 v =
            g.edgePropByType v EdgeLabel.knows.asI32 u) ∧
      ∀ key, ((g.adjacency key).getD []).Nodup := by
  intro g
  have hg : g.Mirrored := by
    obtain ⟨hstore, hcache⟩ := SnbStore.mirrored_imports runs
    have hopen := SnbGraph.mirrored_open hstore (hcache hruns) scan
    show (updates.foldl SnbGraph.runDgsHttpUpdate _).Mirrored
    generalize SnbGraph.open (runs.foldl SnbStore.afterRun .new) scan = g₀ at hopen
    induction updates generalizing g₀ with
    | nil => exact hopen
    | cons update updates ih =>
        refine ih _ ?_
        rw [runDgsHttpUpdate_eq]
        exact hopen.insertEdges (balanced_update update)
  have hprop : ∀ {a b : EdgeTriple}, Mirror a b →
      (g.edgeProps a).getD .empty = (g.edgeProps b).getD .empty := fun hab => by
    rw [hg.props _ _ hab]
  refine ⟨fun L hL u v => ⟨?_, hprop (.reverse u v L hL)⟩, fun u v => ⟨?_, hprop (.knows u v)⟩,
    hg.nodup⟩
  · exact hg.edges _ _ (.reverse u v L hL)
  · exact hg.edges _ _ (.knows u v)

/-- A full import with one acquaintance, a stream that repeats it with another date, and a like. -/
theorem mirrored_of_imports_small :
    let g := [SnbUpdate.likePost 1 7 3, .know 2 1 4].foldl SnbGraph.runDgsHttpUpdate
      (SnbGraph.open ([ImportRun.full 0 fun spec =>
        if spec.bidirectionalPositive then [⟨some 1, some 2, .i64 1⟩] else [],
        .updates 3 [.know 2 1 2]].foldl SnbStore.afterRun .new) [])
    (∀ L, L ≠ .knows → ∀ u v,
        (v ∈ g.outNeighborsCached u L ↔ u ∈ g.inNeighborsCached v L) ∧
          g.edgePropByType u L.asI32 v = g.edgePropByType v (-L.asI32) u) ∧
      (∀ u v,
        (v ∈ g.outNeighborsCached u .knows ↔ u ∈ g.outNeighborsCached v .knows) ∧
          g.edgePropByType u EdgeLabel.knows.asI32 v =
            g.edgePropByType v EdgeLabel.knows.asI32 u) ∧
      ∀ key, ((g.adjacency key).getD []).Nodup :=
  mirrored_of_imports _ (List.cons_ne_nil _ _) _ _

end LsmGraph
