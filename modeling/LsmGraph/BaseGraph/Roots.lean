import LsmGraph.BaseGraph.Rows
import LsmGraph.Library.Chains
import LsmGraph.Snb.FriendSets
import LsmGraph.Snb.Mirror

/-! # The roots of the comments

The loop of `build_derived_indexes` that looks for the post at the end of each comment's reply chain,
and `root_post_vid` of `snb/queries.rs`, which does so in an open graph. The loader remembers a root
only when it has found it, and does not notice a comment that it meets again: on a cycle of replies it
never ends, where the open graph finds no post (`rootPostVid_spec`). It resolves all roots exactly when
there is no cycle, and no post with the local id that stands for no value (`resolved_iff`). The open
graph has the same replies when a full import has made it from the same rows
(`sameReplies_fullImport`). -/

namespace LsmGraph

open Chains

/-! ## In an open graph -/

namespace OpenGraph

/-- What the loop of `root_post_vid` does with a message that it has not seen. -/
def replyStep (g : OpenGraph) (current : VertexId) : VertexId ⊕ Option VertexId :=
  match (g.outNeighborsCached current .replyOfPost).head? with
  | some postVid => .inr (some postVid)
  | none =>
      match (g.outNeighborsCached current .replyOfComment).head? with
      | some commentVid => .inl commentVid
      | none => .inr none

/-- `root_post_vid`; the outer `none` means that the fuel is used up. -/
def rootPostVid (g : OpenGraph) (fuel : Nat) (msgVid : VertexId) : Option (Option VertexId) :=
  if (g.post msgVid).isSome then some (some msgVid)
  else (walk g.replyStep fuel msgVid ∅).map Option.join

end OpenGraph

namespace Base

/-! ## In the loader -/

/-- The columns of the parents, of one length; a parent that is a comment is one of the table. -/
structure ReplyTable where
  parentKind : List UInt8
  parentId : List UInt32
  length_eq : parentKind.length = parentId.length
  lt_length : ∀ (i : Nat) (c : UInt32), parentKind[i]? = some 1 → parentId[i]? = some c →
    c.toNat < parentId.length

namespace ReplyTable

variable (t : ReplyTable)

def len : Nat := t.parentId.length

/-- `resolve_comment_root` with the memo it leaves, or `none` if the calls are nested deeper than the
fuel. -/
def resolveCommentRoot : Nat → UInt32 → List UInt32 → Option (UInt32 × List UInt32)
  | 0, _, _ => none
  | fuel + 1, comment, memo =>
      let idx := comment.toNat
      let known := memo.getD idx u32Max
      if known ≠ u32Max then some (known, memo)
      else
        let resolved : Option (UInt32 × List UInt32) :=
          if t.parentKind.getD idx u8Max = 0 then some (t.parentId.getD idx u32Max, memo)
          else if t.parentKind.getD idx u8Max = 1 then
            resolveCommentRoot fuel (t.parentId.getD idx u32Max) memo
          else some (u32Max, memo)
        resolved.map fun (root, memo) => (root, memo.set idx root)

/-- The loop over all comments: the column `comment_root_post`. -/
def commentRoots (fuel : Nat) : Option (List UInt32) :=
  (List.range t.len).foldlM
    (fun memo idx => (t.resolveCommentRoot fuel (UInt32.ofNat idx) memo).map Prod.snd)
    (List.replicate t.len u32Max)

/-! ## Reply chains -/

/-- The message that a comment replies to. -/
def parent (comment : UInt32) : Option MessageId :=
  if t.parentKind.getD comment.toNat u8Max = 0 then
    some (.post (t.parentId.getD comment.toNat u32Max))
  else if t.parentKind.getD comment.toNat u8Max = 1 then
    some (.comment (t.parentId.getD comment.toNat u32Max))
  else none

/-- A reply chain goes on with a comment, or ends with a post or with none. -/
def step (comment : UInt32) : UInt32 ⊕ Option UInt32 :=
  match t.parent comment with
  | some (.post p) => .inr (some p)
  | some (.comment c) => .inl c
  | none => .inr none

/-- The post at the end of the reply chain, or none if the chain ends without a post or is cyclic. -/
def IsRoot (comment : UInt32) (root : Option UInt32) : Prop :=
  ∀ p, root = some p ↔ EndsWith t.step comment (some p)

variable {t}

/-- A chain stays in the table. -/
theorem lt_len_of_step {c c' : UInt32} (hc : c.toNat < t.len) (h : t.step c = .inl c') :
    c'.toNat < t.len := by
  rw [step, parent] at h
  have hkind : c.toNat < t.parentKind.length := t.length_eq ▸ hc
  split_ifs at h with hpost hcomment
  obtain rfl := Sum.inl.inj h
  refine t.lt_length c.toNat _ ?_ ?_
  · rw [List.getElem?_eq_getElem hkind, ← hcomment, List.getD_eq_getElem _ _ hkind]
  · rw [List.getElem?_eq_getElem hc, List.getD_eq_getElem _ _ hc]

/-- A call for a comment whose root is not known. -/
theorem resolveCommentRoot_succ {fuel : Nat} {c : UInt32} {memo : List UInt32}
    (hnew : memo.getD c.toNat u32Max = u32Max) :
    t.resolveCommentRoot (fuel + 1) c memo =
      (((t.step c).elim (fun parent => t.resolveCommentRoot fuel parent memo)
        fun root => some (root.getD u32Max, memo) : Option (UInt32 × List UInt32))).map
        fun (root, memo) => (root, memo.set c.toNat root) := by
  rw [resolveCommentRoot, if_neg (not_not_intro hnew), step, parent]
  split_ifs <;> rfl

/-! ## One call -/

/-- What the memo knows are roots. -/
def Known (t : ReplyTable) (memo : List UInt32) : Prop :=
  memo.length = t.len ∧ ∀ c : UInt32, memo.getD c.toNat u32Max ≠ u32Max →
    EndsWith t.step c (some (memo.getD c.toNat u32Max))

/-- What a call for `c` makes of the memo, when it returns `value`. -/
structure Learns (t : ReplyTable) (c value : UInt32) (memo memo' : List UInt32) : Prop where
  known : t.Known memo'
  value_eq : memo'.getD c.toNat u32Max = value
  keeps : ∀ d : UInt32, memo.getD d.toNat u32Max ≠ u32Max →
    memo'.getD d.toNat u32Max = memo.getD d.toNat u32Max

theorem getD_set {memo : List UInt32} {c : UInt32} (hc : c.toNat < memo.length) (value : UInt32)
    (d : UInt32) :
    (memo.set c.toNat value).getD d.toNat u32Max =
      if d = c then value else memo.getD d.toNat u32Max := by
  rw [List.getD_eq_getElem?_getD, List.getElem?_set, List.getD_eq_getElem?_getD]
  by_cases hdc : d = c
  · rw [if_pos hdc, hdc, if_pos rfl, if_pos hc, Option.getD_some]
  · rw [if_neg hdc, if_neg fun h => hdc (UInt32.toNat_inj.mp h.symm)]

/-- The root is written down. -/
theorem Learns.set {c value : UInt32} {root : Option UInt32} {memo memo' : List UInt32}
    (hc : c.toNat < t.len) (hnew : memo.getD c.toNat u32Max = u32Max) (hknown : t.Known memo')
    (hkeeps : ∀ d : UInt32, memo.getD d.toNat u32Max ≠ u32Max →
      memo'.getD d.toNat u32Max = memo.getD d.toNat u32Max)
    (hroot : EndsWith t.step c root) (hvalue : value = root.getD u32Max) :
    t.Learns c value memo (memo'.set c.toNat value) := by
  have hset := @getD_set memo' c (hknown.1 ▸ hc) value
  refine ⟨⟨by rw [List.length_set, hknown.1], fun d hd => ?_⟩, by rw [hset, if_pos rfl], fun d hd => ?_⟩
  · rw [hset] at hd ⊢
    split at hd
    · rename_i hdc
      rw [if_pos hdc, hdc]
      -- a comment without a root post stays unknown
      cases root with
      | none => exact absurd hvalue hd
      | some p =>
          rw [hvalue]
          exact hroot
    · rename_i hdc
      rw [if_neg hdc]
      exact hknown.2 d hd
  · have hdc : d ≠ c := by
      rintro rfl
      exact hd hnew
    rw [hset, if_neg hdc, hkeeps d hd]

/-- **A call that returns** found the root of its comment. -/
theorem resolveCommentRoot_ok {fuel : Nat} {c value : UInt32} {memo memo' : List UInt32}
    (hc : c.toNat < t.len) (hknown : t.Known memo)
    (h : t.resolveCommentRoot fuel c memo = some (value, memo')) :
    (∃ root, EndsWith t.step c root ∧ value = root.getD u32Max) ∧ t.Learns c value memo memo' := by
  induction fuel generalizing c value memo' with
  | zero => exact absurd h nofun
  | succ fuel ih =>
      by_cases hnew : memo.getD c.toNat u32Max = u32Max
      · rw [resolveCommentRoot_succ hnew] at h
        obtain ⟨⟨value', memo₁⟩, hresolved, heq⟩ := Option.map_eq_some_iff.mp h
        obtain ⟨rfl, rfl⟩ := Prod.mk.inj heq
        cases hstep : t.step c with
        | inr root =>
            rw [hstep] at hresolved
            obtain ⟨rfl, rfl⟩ := Prod.mk.inj (Option.some.inj hresolved)
            have hroot := endsWith_of_inr hstep
            exact ⟨⟨root, hroot, rfl⟩, Learns.set hc hnew hknown (fun _ _ => rfl) hroot rfl⟩
        | inl c' =>
            rw [hstep] at hresolved
            obtain ⟨⟨root, hroot', hvalue⟩, hlearns⟩ := ih (lt_len_of_step hc hstep) hresolved
            have hroot := (endsWith_of_inl hstep).mpr hroot'
            exact ⟨⟨root, hroot, hvalue⟩,
              Learns.set hc hnew hlearns.known hlearns.keeps hroot hvalue⟩
      · rw [resolveCommentRoot, if_pos hnew] at h
        obtain ⟨rfl, rfl⟩ := Prod.mk.inj (Option.some.inj h)
        exact ⟨⟨_, hknown.2 c hnew, rfl⟩, hknown, rfl, fun _ _ => rfl⟩

/-- **A call returns** if the chain ends within the fuel. -/
theorem isSome_resolveCommentRoot {fuel n : Nat} {c : UInt32} {root : Option UInt32}
    (h : EndsAfter t.step n c root) (hfuel : n < fuel) (memo : List UInt32) :
    (t.resolveCommentRoot fuel c memo).isSome := by
  induction fuel generalizing n c with
  | zero => exact absurd hfuel (Nat.not_lt_zero n)
  | succ fuel ih =>
      by_cases hnew : memo.getD c.toNat u32Max = u32Max
      · rw [resolveCommentRoot_succ hnew, Option.isSome_map]
        cases h with
        | here hstep =>
            rw [hstep]
            rfl
        | next hstep hrest =>
            rw [hstep]
            exact ih hrest (Nat.lt_of_succ_lt_succ hfuel)
      · rw [resolveCommentRoot, if_pos hnew]
        rfl

/-! ## The loop -/

/-- The roots of the comments so far are written down. -/
def WrittenFor (t : ReplyTable) (memo : List UInt32) (c : UInt32) : Prop :=
  ∀ p, EndsWith t.step c (some p) → memo.getD c.toNat u32Max = p

/-- Later calls leave it there. -/
theorem Learns.written {c d value : UInt32} {memo memo' : List UInt32}
    (h : t.Learns c value memo memo') (hwritten : t.WrittenFor memo d) : t.WrittenFor memo' d := by
  intro p hp
  by_cases hmax : memo.getD d.toNat u32Max = u32Max
  · -- the root is the post that stands for no value, which the memo cannot know
    obtain rfl : p = u32Max := (hwritten p hp).symm.trans hmax
    by_contra hne
    have hother := h.known.2 d hne
    exact hne (Option.some.inj (hother.unique hp))
  · rw [h.keeps d hmax]
    exact hwritten p hp

/-- **The loop** over comments of the table: those it has passed end, and are written down. -/
theorem foldlM_resolve_ok {fuel : Nat} {idxs : List Nat} {memo roots : List UInt32}
    (hidxs : ∀ idx ∈ idxs, idx < t.len) (hknown : t.Known memo)
    (h : idxs.foldlM
      (fun memo idx => (t.resolveCommentRoot fuel (UInt32.ofNat idx) memo).map Prod.snd) memo =
        some roots) :
    t.Known roots ∧ (∀ d, t.WrittenFor memo d → t.WrittenFor roots d) ∧
      ∀ idx ∈ idxs, Ends t.step (UInt32.ofNat idx) ∧ t.WrittenFor roots (UInt32.ofNat idx) := by
  induction idxs generalizing memo with
  | nil =>
      obtain rfl := Option.some.inj h
      exact ⟨hknown, fun _ => id, fun idx hidx => absurd hidx List.not_mem_nil⟩
  | cons idx idxs ih =>
      rw [List.foldlM_cons] at h
      obtain ⟨memo₁, hcall, hrest⟩ := Option.bind_eq_some_iff.mp h
      obtain ⟨⟨value, memo₁⟩, hresolved, rfl⟩ := Option.map_eq_some_iff.mp hcall
      have hlt : (UInt32.ofNat idx).toNat < t.len := by
        rw [UInt32.toNat_ofNat']
        exact (Nat.mod_le _ _).trans_lt (hidxs idx List.mem_cons_self)
      obtain ⟨⟨root, hroot, hvalue⟩, hlearns⟩ := resolveCommentRoot_ok hlt hknown hresolved
      obtain ⟨hknown', hkeeps, hpassed⟩ :=
        ih (fun idx hidx => hidxs idx (List.mem_cons_of_mem _ hidx)) hlearns.known hrest
      refine ⟨hknown', fun d hd => hkeeps d (hlearns.written hd), ?_⟩
      intro idx' hidx'
      rcases List.mem_cons.mp hidx' with rfl | hidx'
      · refine ⟨⟨root, hroot⟩, hkeeps _ fun p hp => ?_⟩
        rw [hlearns.value_eq, hvalue, hroot.unique hp]
        rfl
      · exact hpassed idx' hidx'

/-- **The loop ends** when all chains end within the fuel. -/
theorem isSome_foldlM_resolve {fuel : Nat} {idxs : List Nat}
    (h : ∀ idx ∈ idxs, ∃ n root, EndsAfter t.step n (UInt32.ofNat idx) root ∧ n < fuel)
    (memo : List UInt32) :
    (idxs.foldlM
      (fun memo idx => (t.resolveCommentRoot fuel (UInt32.ofNat idx) memo).map Prod.snd)
        memo).isSome := by
  induction idxs generalizing memo with
  | nil => rfl
  | cons idx idxs ih =>
      obtain ⟨n, root, hends, hlt⟩ := h idx List.mem_cons_self
      obtain ⟨called, hcalled⟩ :=
        Option.isSome_iff_exists.mp (isSome_resolveCommentRoot hends hlt memo)
      rw [List.foldlM_cons, hcalled]
      exact ih (fun idx hidx => h idx (List.mem_cons_of_mem _ hidx)) called.2

/-- Enough fuel for finitely many chains. -/
theorem exists_fuel {idxs : List Nat} (h : ∀ idx ∈ idxs, Ends t.step (UInt32.ofNat idx)) :
    ∃ fuel, ∀ idx ∈ idxs, ∃ n root, EndsAfter t.step n (UInt32.ofNat idx) root ∧ n < fuel := by
  induction idxs with
  | nil => exact ⟨0, fun idx hidx => absurd hidx List.not_mem_nil⟩
  | cons idx idxs ih =>
      obtain ⟨root, n, hends⟩ := h idx List.mem_cons_self
      obtain ⟨fuel, hfuel⟩ := ih fun idx hidx => h idx (List.mem_cons_of_mem _ hidx)
      refine ⟨max (n + 1) fuel, fun idx' hidx' => ?_⟩
      rcases List.mem_cons.mp hidx' with rfl | hidx'
      · exact ⟨n, root, hends, lt_max_of_lt_left (Nat.lt_succ_self n)⟩
      · obtain ⟨m, root', hends', hlt⟩ := hfuel idx' hidx'
        exact ⟨m, root', hends', lt_max_of_lt_right hlt⟩

theorem known_start (t : ReplyTable) : t.Known (List.replicate t.len u32Max) := by
  refine ⟨List.length_replicate, fun c hc => ?_⟩
  rw [List.getD_eq_getElem?_getD, List.getElem?_replicate] at hc
  split at hc
  · exact absurd rfl hc
  · exact absurd rfl hc

/-- **When the loop ends**, it has written down all roots. -/
theorem commentRoots_spec (t : ReplyTable) :
    ((∃ fuel roots, t.commentRoots fuel = some roots) ↔
      ∀ c : UInt32, c.toNat < t.len → Ends t.step c) ∧
    ∀ fuel roots, t.commentRoots fuel = some roots →
      t.Known roots ∧ ∀ c : UInt32, c.toNat < t.len → t.WrittenFor roots c := by
  have hok : ∀ fuel roots, t.commentRoots fuel = some roots → t.Known roots ∧
      ∀ c : UInt32, c.toNat < t.len → Ends t.step c ∧ t.WrittenFor roots c := by
    intro fuel roots h
    obtain ⟨hknown, -, hpassed⟩ :=
      foldlM_resolve_ok (fun idx hidx => List.mem_range.mp hidx) t.known_start h
    refine ⟨hknown, fun c hc => ?_⟩
    have hcomment := hpassed c.toNat (List.mem_range.mpr hc)
    rwa [UInt32.ofNat_toNat] at hcomment
  refine ⟨⟨?_, fun hends => ?_⟩, fun fuel roots h => ⟨(hok fuel roots h).1, fun c hc =>
    ((hok fuel roots h).2 c hc).2⟩⟩
  · rintro ⟨fuel, roots, h⟩ c hc
    exact ((hok fuel roots h).2 c hc).1
  · have hall : ∀ idx ∈ List.range t.len, Ends t.step (UInt32.ofNat idx) := by
      intro idx hidx
      refine hends _ ?_
      rw [UInt32.toNat_ofNat']
      exact (Nat.mod_le _ _).trans_lt (List.mem_range.mp hidx)
    obtain ⟨fuel, hfuel⟩ := exists_fuel hall
    exact ⟨fuel, Option.isSome_iff_exists.mp (isSome_foldlM_resolve hfuel _)⟩

/-! ## Both loaders -/

/-- The open graph has the messages of the table, and their replies. Where the table has a post, the
graph may also have a comment, from a row that names both. -/
structure SameReplies (t : ReplyTable) (g : OpenGraph) (commentVid postVid : UInt32 → VertexId) :
    Prop where
  post_eq_none : ∀ c : UInt32, c.toNat < t.len → g.post (commentVid c) = none
  replyOfPost : ∀ c : UInt32, c.toNat < t.len →
    (g.outNeighborsCached (commentVid c) .replyOfPost).head? =
      match t.parent c with
      | some (.post p) => some (postVid p)
      | _ => none
  replyOfComment : ∀ c : UInt32, c.toNat < t.len → (∀ p, t.parent c ≠ some (.post p)) →
    (g.outNeighborsCached (commentVid c) .replyOfComment).head? =
      match t.parent c with
      | some (.comment c') => some (commentVid c')
      | _ => none

/-- Every comment has one root. -/
theorem exists_isRoot (t : ReplyTable) (c : UInt32) : ∃ root, t.IsRoot c root := by
  by_cases h : ∃ p, EndsWith t.step c (some p)
  · obtain ⟨p, hp⟩ := h
    exact ⟨some p, fun q => ⟨fun heq => heq ▸ hp, fun hq => hp.unique hq⟩⟩
  · exact ⟨none, fun q => ⟨nofun, fun hq => absurd ⟨q, hq⟩ h⟩⟩

/-- The two loops make the same steps. -/
theorem SameReplies.replyStep_eq {g : OpenGraph} {commentVid postVid : UInt32 → VertexId}
    (h : t.SameReplies g commentVid postVid) {c : UInt32} (hc : c.toNat < t.len) :
    g.replyStep (commentVid c) = (t.step c).map commentVid (Option.map postVid) := by
  have hpost := h.replyOfPost c hc
  have hcomment := h.replyOfComment c hc
  rw [OpenGraph.replyStep, hpost, step]
  cases hparent : t.parent c with
  | none =>
      rw [hparent] at hcomment
      dsimp only
      rw [hcomment nofun]
      rfl
  | some m =>
      cases m with
      | post p => rfl
      | comment c' =>
          rw [hparent] at hcomment
          dsimp only
          rw [hcomment nofun]
          rfl

/-- **The open graph finds every root**, also on a cycle. -/
theorem rootPostVid_spec {g : OpenGraph} {commentVid postVid : UInt32 → VertexId}
    (h : t.SameReplies g commentVid postVid) {c : UInt32} (hc : c.toNat < t.len)
    {root : Option UInt32} (hroot : t.IsRoot c root) :
    ∃ n, ∀ fuel, n < fuel → g.rootPostVid fuel (commentVid c) = some (root.map postVid) := by
  obtain ⟨result, hresult, n, hn⟩ := @walk_spec _ _ g.replyStep _ _ (commentVid c)
  refine ⟨n, fun fuel hfuel => ?_⟩
  have hends : ∀ b, EndsWith g.replyStep (commentVid c) b ↔
      ∃ r, EndsWith t.step c r ∧ r.map postVid = b := fun b =>
    endsWith_map_iff (fun _ _ => lt_len_of_step) (fun a ha => h.replyStep_eq ha) hc
  rw [OpenGraph.rootPostVid, h.post_eq_none c hc, Option.isSome_none, if_neg Bool.false_ne_true, hn fuel hfuel,
    Option.map_some, Option.some_inj]
  cases root with
  | some p =>
      have hpost := (hends _).mpr ⟨some p, (hroot p).mp rfl, rfl⟩
      rw [(hresult _).mpr hpost]
      rfl
  | none =>
      cases hwalked : result with
      | none => rfl
      | some b =>
          obtain ⟨r, hr, rfl⟩ := (hends b).mp ((hresult b).mp hwalked)
          cases r with
          | none => rfl
          | some p => exact absurd ((hroot p).mpr hr) nofun

/-- **All roots are resolved**: the loop ends, and the column has for every comment the post at the end
of its reply chain, or no value if there is none, which is what the open graph of the same data finds. -/
def Resolved (t : ReplyTable) : Prop :=
  ∃ fuel roots, t.commentRoots fuel = some roots ∧
    ∀ c : UInt32, c.toNat < t.len → ∃ root, t.IsRoot c root ∧ singleValue roots c = root ∧
      ∀ (g : OpenGraph) (commentVid postVid : UInt32 → VertexId),
        t.SameReplies g commentVid postVid → ∃ n, ∀ fuel, n < fuel →
          g.rootPostVid fuel (commentVid c) = some ((singleValue roots c).map postVid)

/-- No chain is cyclic, and none ends with the post whose local id stands for no value. -/
def Resolvable (t : ReplyTable) : Prop :=
  ∀ c : UInt32, c.toNat < t.len → Ends t.step c ∧ ¬ EndsWith t.step c (some u32Max)

/-- The value of a column that is written for a comment. -/
theorem singleValue_eq {roots : List UInt32} {c : UInt32} (hknown : t.Known roots)
    (hc : c.toNat < t.len) (hwritten : t.WrittenFor roots c) {root : Option UInt32}
    (hroot : t.IsRoot c root) (hmax : root ≠ some u32Max) : singleValue roots c = root := by
  have hlt : c.toNat < roots.length := hknown.1 ▸ hc
  have hvalue : roots[c.toNat]? = some (roots.getD c.toNat u32Max) := by
    rw [List.getElem?_eq_getElem hlt, List.getD_eq_getElem _ _ hlt]
  rw [singleValue, hvalue, Option.bind_eq_bind, Option.bind_some]
  cases root with
  | some p =>
      rw [hwritten p ((hroot p).mp rfl), if_pos fun hp => hmax (congrArg some hp)]
  | none =>
      refine if_neg fun hne => ?_
      exact absurd ((hroot _).mpr (hknown.2 c hne)) nofun

/-- **When the loader resolves all roots.** -/
theorem resolved_iff (t : ReplyTable) : t.Resolved ↔ t.Resolvable := by
  obtain ⟨hends, hspec⟩ := t.commentRoots_spec
  constructor
  · rintro ⟨fuel, roots, hroots, hresolved⟩ c hc
    refine ⟨hends.mp ⟨fuel, roots, hroots⟩ c hc, fun hmax => ?_⟩
    obtain ⟨root, hroot, hvalue, -⟩ := hresolved c hc
    rw [(hroot u32Max).mpr hmax, singleValue] at hvalue
    obtain ⟨value, -, hset⟩ := Option.bind_eq_some_iff.mp hvalue
    split at hset
    · rename_i hne
      exact hne (Option.some.inj hset)
    · exact absurd hset nofun
  · intro h
    obtain ⟨fuel, roots, hroots⟩ := hends.mpr fun c hc => (h c hc).1
    obtain ⟨hknown, hwritten⟩ := hspec fuel roots hroots
    refine ⟨fuel, roots, hroots, fun c hc => ?_⟩
    obtain ⟨root, hroot⟩ := t.exists_isRoot c
    have hmax : root ≠ some u32Max := fun heq => (h c hc).2 ((hroot u32Max).mp heq)
    have hvalue := singleValue_eq hknown hc (hwritten c hc) hroot hmax
    refine ⟨root, hroot, hvalue, fun g commentVid postVid hsame => ?_⟩
    rw [hvalue]
    exact rootPostVid_spec hsame hc hroot

/-! ## An import of the same rows -/

/-- The specification of the posts that comments reply to, among those of a full import. -/
def replyOfPostFile : EdgeFileSpec where
  path := "dynamic/comment_0_0.csv"
  srcLabel := .comment
  dstLabel := .post
  edgeLabel := .replyOfPost

/-- And of the comments. -/
def replyOfCommentFile : EdgeFileSpec where
  path := "dynamic/comment_0_0.csv"
  srcLabel := .comment
  dstLabel := .comment
  edgeLabel := .replyOfComment

theorem mem_edgeFiles_replies :
    (∀ spec, spec ∈ edgeFiles ∧ spec.edgeLabel = .replyOfPost ↔ spec = replyOfPostFile) ∧
      ∀ spec, spec ∈ edgeFiles ∧ spec.edgeLabel = .replyOfComment ↔ spec = replyOfCommentFile := by
  have hposts : ∀ spec ∈ edgeFiles, spec.edgeLabel = .replyOfPost → spec = replyOfPostFile := by
    decide
  have hcomments : ∀ spec ∈ edgeFiles, spec.edgeLabel = .replyOfComment →
      spec = replyOfCommentFile := by
    decide
  constructor
  · intro spec
    exact ⟨fun h => hposts spec h.1 h.2, by rintro rfl; decide⟩
  · intro spec
    exact ⟨fun h => hcomments spec h.1 h.2, by rintro rfl; decide⟩

/-- The edges of one label that a row is imported as. -/
theorem mem_rowCalls {spec : EdgeFileSpec} {row : EdgeRow} {L : EdgeLabel}
    (hbidirectional : spec.edgeLabel = L → spec.bidirectionalPositive = false) {s d : VertexId} :
    (s, L.asI32, d) ∈ (insertionsOf (spec.rowCalls row)).map EdgeInsertion.triple ↔
      spec.edgeLabel = L ∧ ∃ a b, row.src = some a ∧ row.dst = some b ∧
        s = encodeVid spec.srcLabel a ∧ d = encodeVid spec.dstLabel b := by
  rw [EdgeFileSpec.rowCalls]
  cases hsrc : row.src with
  | none => simp [insertionsOf]
  | some a =>
      cases hdst : row.dst with
      | none => simp [insertionsOf]
      | some b =>
          by_cases hL : spec.edgeLabel = L
          · have hneg : L.asI32 ≠ -L.asI32 := asI32_ne_neg L L
            simp [insertionsOf, edgeCalls, EdgeCall.insertions, EdgeInsertion.triple,
              hbidirectional hL, hL, hneg]
          · have hneg : L.asI32 ≠ -spec.edgeLabel.asI32 := asI32_ne_neg L _
            have hne : L.asI32 ≠ spec.edgeLabel.asI32 := fun h => hL (asI32_inj.mp h).symm
            cases spec.bidirectionalPositive <;>
              simp [insertionsOf, edgeCalls, EdgeCall.insertions, EdgeInsertion.triple, hL, hneg, hne]

/-- What a full import lists under a label that has one file. -/
theorem mem_outNeighbors_fullImport {rows : EdgeFileSpec → List EdgeRow} {spec : EdgeFileSpec}
    {L : EdgeLabel} (hspec : ∀ spec', spec' ∈ edgeFiles ∧ spec'.edgeLabel = L ↔ spec' = spec)
    (hbidirectional : spec.bidirectionalPositive = false) (clock : Timestamp)
    (scan : List EdgeRecord) (s d : VertexId) :
    d ∈ (SnbGraph.open (SnbStore.importSnbFull clock rows) scan).outNeighborsCached s L ↔
      ∃ row ∈ rows spec, ∃ a b, row.src = some a ∧ row.dst = some b ∧
        s = encodeVid spec.srcLabel a ∧ d = encodeVid spec.dstLabel b := by
  have hlisted := mem_adjacencyEdges_build AdjacencyBuilder.empty (clock + 1)
    (insertionsOf (fullImportCalls rows)) (s, L.asI32, d)
  have hnothing : d ∉ ((AdjacencyBuilder.empty.grouped (s, L.asI32)).getD []).map Prod.fst :=
    List.not_mem_nil
  rw [or_iff_right hnothing] at hlisted
  refine hlisted.trans ?_
  rw [fullImportCalls]
  simp only [insertionsOf_flatMap, List.map_flatMap, List.mem_flatMap]
  constructor
  · rintro ⟨spec', hfile, row, hrow, htriple⟩
    have hforward : spec'.edgeLabel = L → spec'.bidirectionalPositive = false := by
      intro hL
      rw [(hspec spec').mp ⟨hfile, hL⟩, hbidirectional]
    obtain ⟨hL, hids⟩ := (mem_rowCalls hforward).mp htriple
    obtain rfl := (hspec spec').mp ⟨hfile, hL⟩
    exact ⟨row, hrow, hids⟩
  · rintro ⟨row, hrow, hids⟩
    obtain ⟨hfile, hL⟩ := (hspec spec).mpr rfl
    exact ⟨spec, hfile, row, hrow, (mem_rowCalls fun _ => hbidirectional).mpr ⟨hL, hids⟩⟩

/-- The head of a list with at most one member. -/
theorem head?_eq_of_mem_iff {α : Type} {l : List α} {o : Option α} (h : ∀ d, d ∈ l ↔ o = some d) :
    l.head? = o := by
  cases l with
  | nil =>
      cases o with
      | none => rfl
      | some d => exact absurd ((h d).mpr rfl) List.not_mem_nil
  | cons d l => exact ((h d).mp List.mem_cons_self).symm

/-- The rows of an import are the replies of the table, with distinct vertices for its comments. -/
structure SameRows (t : ReplyTable) (rows : EdgeFileSpec → List EdgeRow)
    (commentId postId : UInt32 → Int64) : Prop where
  posts : ∀ a b, (∃ row ∈ rows replyOfPostFile, row.src = some a ∧ row.dst = some b) ↔
    ∃ c p, c.toNat < t.len ∧ t.parent c = some (.post p) ∧ a = commentId c ∧ b = postId p
  comments : ∀ a b, (∃ row ∈ rows replyOfCommentFile, row.src = some a ∧ row.dst = some b) ↔
    ∃ c c', c.toNat < t.len ∧ t.parent c = some (.comment c') ∧ a = commentId c ∧ b = commentId c'
  vid_inj : ∀ c c' : UInt32, c.toNat < t.len → c'.toNat < t.len →
    encodeVid .comment (commentId c) = encodeVid .comment (commentId c') → c = c'

/-- **A full import of these rows** is an open graph with the replies of the table. -/
theorem sameReplies_fullImport {rows : EdgeFileSpec → List EdgeRow} {commentId postId : UInt32 → Int64}
    (h : t.SameRows rows commentId postId) (clock : Timestamp) (scan : List EdgeRecord)
    {vertices : VertexId → Option VertexData}
    (hpost : ∀ c : UInt32, c.toNat < t.len →
      ∀ p, vertices (encodeVid .comment (commentId c)) ≠ some (.post p)) :
    t.SameReplies ⟨SnbGraph.open (SnbStore.importSnbFull clock rows) scan, vertices⟩
      (fun c => encodeVid .comment (commentId c)) (fun p => encodeVid .post (postId p)) := by
  refine ⟨fun c hc => ?_, fun c hc => head?_eq_of_mem_iff fun d => ?_,
    fun c hc hnotPost => head?_eq_of_mem_iff fun d => ?_⟩
  · rw [OpenGraph.post]
    split
    · rename_i p hp
      exact absurd hp (hpost c hc p)
    · rfl
  · refine (mem_outNeighbors_fullImport mem_edgeFiles_replies.1 rfl clock scan _ d).trans ?_
    constructor
    · rintro ⟨row, hrow, a, b, ha, hb, hsrc, rfl⟩
      obtain ⟨c', p, hc', hparent, rfl, rfl⟩ := (h.posts a b).mp ⟨row, hrow, ha, hb⟩
      rw [h.vid_inj c c' hc hc' hsrc, hparent]
      rfl
    · intro hd
      split at hd
      · rename_i p hparent
        obtain ⟨row, hrow, ha, hb⟩ := (h.posts _ _).mpr ⟨c, p, hc, hparent, rfl, rfl⟩
        exact ⟨row, hrow, _, _, ha, hb, rfl, (Option.some.inj hd).symm⟩
      · exact absurd hd nofun
  · refine (mem_outNeighbors_fullImport mem_edgeFiles_replies.2 rfl clock scan _ d).trans ?_
    constructor
    · rintro ⟨row, hrow, a, b, ha, hb, hsrc, rfl⟩
      obtain ⟨c₁, c₂, hc₁, hparent, rfl, rfl⟩ := (h.comments a b).mp ⟨row, hrow, ha, hb⟩
      rw [h.vid_inj c c₁ hc hc₁ hsrc, hparent]
      rfl
    · intro hd
      split at hd
      · rename_i c' hparent
        obtain ⟨row, hrow, ha, hb⟩ := (h.comments _ _).mpr ⟨c, c', hc, hparent, rfl, rfl⟩
        exact ⟨row, hrow, _, _, ha, hb, rfl, (Option.some.inj hd).symm⟩
      · exact absurd hd nofun

end ReplyTable

/-! ## The table of the comments -/

/-- What the pass over the comments keeps of its columns. -/
structure CommentEdges.TableOf (edges : CommentEdges) (len : Nat) : Prop where
  length_kind : edges.parentKind.length = len
  length_id : edges.parentId.length = len
  lt_len : ∀ (i : Nat) (c : UInt32), edges.parentKind[i]? = some 1 → edges.parentId[i]? = some c →
    c.toNat < len

theorem CommentEdges.TableOf.push {edges : CommentEdges} {len : Nat} (h : edges.TableOf len)
    {row : UInt32 × UInt32 × Option MessageId}
    (hrow : ∀ c, row.2.2 = some (.comment c) → c.toNat < len) : (edges.push row).TableOf len := by
  rw [CommentEdges.push]
  cases hparent : row.2.2 with
  | none => exact ⟨h.length_kind, h.length_id, h.lt_len⟩
  | some m =>
      cases m with
      | post p =>
          refine ⟨(List.length_set ..).trans h.length_kind, (List.length_set ..).trans h.length_id, ?_⟩
          intro i c hkind hid
          dsimp only at hkind hid
          rw [List.getElem?_set] at hkind hid
          split at hkind
          · split at hkind
            · exact absurd (Option.some.inj hkind) (by decide)
            · cases hkind
          · rename_i hother
            rw [if_neg hother] at hid
            exact h.lt_len i c hkind hid
      | comment parent =>
          refine ⟨(List.length_set ..).trans h.length_kind, (List.length_set ..).trans h.length_id, ?_⟩
          intro i c hkind hid
          dsimp only at hkind hid
          rw [List.getElem?_set] at hkind hid
          split at hid
          · split at hid
            · exact Option.some.inj hid ▸ hrow parent hparent
            · cases hid
          · rename_i hother
            rw [if_neg hother] at hkind
            exact h.lt_len i c hkind hid

theorem lt_len_of_commentEdgesRow {maps : AllIdMaps} {header record : List String}
    {row : UInt32 × UInt32 × Option MessageId}
    (h : commentEdgesRow maps header record = .ok row) {c : UInt32}
    (hc : row.2.2 = some (.comment c)) : c.toNat < maps.comment.len := by
  simp only [commentEdgesRow, bind_eq_ok] at h
  obtain ⟨comment, -, creator, -, parent, hparent, h⟩ := h
  cases h
  exact lt_len_of_parentOf (hparent.trans (congrArg Except.ok hc))

theorem tableOf_of_collectComments {file : CsvFile} {maps : AllIdMaps} {edges : CommentEdges}
    (h : collectComments file maps = .ok edges) : edges.TableOf maps.comment.len := by
  obtain ⟨rows, hrows, hfold⟩ := collectComments_eq_ok.mp h
  have hall : ∀ row ∈ rows, ∀ c, row.2.2 = some (.comment c) → c.toNat < maps.comment.len := by
    intro row hrow c hc
    obtain ⟨record, -, hdecode⟩ := hrows.exists_mem_record hrow
    exact lt_len_of_commentEdgesRow hdecode hc
  have hrun : ∀ (rows : List (UInt32 × UInt32 × Option MessageId)) (edges : CommentEdges),
      edges.TableOf maps.comment.len →
        (∀ row ∈ rows, ∀ c, row.2.2 = some (.comment c) → c.toNat < maps.comment.len) →
          (rows.foldl CommentEdges.push edges).TableOf maps.comment.len := by
    intro rows
    induction rows with
    | nil => exact fun edges hedges _ => hedges
    | cons row rows ih =>
        intro edges hedges hrows
        exact ih _ (hedges.push (hrows row List.mem_cons_self)) fun r hr =>
          hrows r (List.mem_cons_of_mem _ hr)
  rw [← hfold]
  refine hrun rows _ ⟨List.length_replicate, List.length_replicate, ?_⟩ hall
  intro i c hkind _
  rw [List.getElem?_replicate] at hkind
  split at hkind
  · exact absurd (Option.some.inj hkind) (by decide)
  · exact absurd hkind nofun

/-- The table that the roots are found with. -/
def CommentEdges.replyTable (edges : CommentEdges) {file : CsvFile} {maps : AllIdMaps}
    (h : collectComments file maps = .ok edges) : ReplyTable where
  parentKind := edges.parentKind
  parentId := edges.parentId
  length_eq := by
    have htable := tableOf_of_collectComments h
    rw [htable.length_kind, htable.length_id]
  lt_length i c hkind hid := by
    have htable := tableOf_of_collectComments h
    rw [htable.length_id]
    exact htable.lt_len i c hkind hid

/-- The ids of one person, one post and one comment. -/
def oneOfEach : AllIdMaps where
  person := IdMap.empty.push 1
  post := IdMap.empty.push 7
  comment := IdMap.empty.push 5
  forum := IdMap.empty
  place := IdMap.empty
  organisation := IdMap.empty
  tag := IdMap.empty
  tagClass := IdMap.empty

/-- The comment replies to the messages with these external ids. -/
def oneComment (replyOfPost replyOfComment : String) : CsvFile where
  header := ["id", "creator", "replyOfPost", "replyOfComment"]
  records := [.ok ["5", "1", replyOfPost, replyOfComment]]

end Base

end LsmGraph
