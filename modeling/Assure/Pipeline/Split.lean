import Assure.Functions.Components
import Assure.Library.Worklist
import Assure.Pipeline.TranslateLoop
import Mathlib.Data.Finset.Option
import Mathlib.Order.Bounds.Basic

/-!
# The split files

The merged file is split back into one file for each function, with the blocks that the function needs.
The pipeline writes which block a function is in, what it depends on and the order of the blocks
(`splitManifest`); `closureBlocks` follows the dependencies of all members of a block, and the blocks it
finds are put together in that order (`splitSource`).

A plan is any function map with any grouping into disjoint groups. The texts of blocks are joined;
what is done to the joined text afterwards is left out.
-/

namespace Assure

open Assure.Library
open scoped BigOperators

/-! ## The manifest and the closure -/

/-- **`split_manifest.json`**: the block of a function, its dependencies, and the blocks in order;
`functions` are the keys of `deps`. -/
structure SplitManifest where
  blockOf : String → Option String
  functions : List String
  deps : String → List String
  topoSccs : List String

/-- **`_dumpSplitManifest`** -/
def splitManifest (funcMap : FuncMap) (sccs : List (List String)) : SplitManifest where
  blockOf fn := (sccs.reverse.find? fun group => fn ∈ group).map blockName
  functions := funcMap.keys
  deps fn := sortedNames ((funcMap.dependFunctions fn).filter fun d => d ∈ funcMap.keys ∧ d ≠ fn)
  topoSccs := sccs.map blockName

/-- `blk.split("@")` -/
def blockMembers (blk : String) : List String := (blk.toList.splitOn '@').map String.ofList

/-- The variables of `closure_blocks`, the top of the stack first. -/
structure BlockClosure where
  seen : Finset String
  stack : List String
  blocks : Finset String

/-- What the block of a function leads to: the dependencies of its members. -/
def SplitManifest.blockDeps (m : SplitManifest) (blk : String) : List String :=
  (blockMembers blk).flatMap m.deps

/-- One pass of `while stack`. -/
def SplitManifest.closurePass (m : SplitManifest) (s : BlockClosure) : Option BlockClosure :=
  match s.stack with
  | [] => none
  | cur :: rest =>
    if cur ∈ s.seen then some { s with stack := rest }
    else
      let seen := insert cur s.seen
      match m.blockOf cur with
      | none => some ⟨seen, rest, s.blocks⟩
      | some blk =>
        some ⟨seen, ((m.blockDeps blk).filter (· ∉ seen)).reverse ++ rest, insert blk s.blocks⟩

/-- What is pushed when a function is taken off the stack. -/
def SplitManifest.pushed (m : SplitManifest) (fn : String) : List String :=
  ((m.blockOf fn).map m.blockDeps).getD []

/-- **`closure_blocks`** -/
def SplitManifest.closureBlocks (m : SplitManifest) (fn : String) : Option (Finset String) :=
  (whileLoop (fun s => !s.stack.isEmpty) m.closurePass
    (1 + ∑ v ∈ (fn :: m.functions).toFinset, (m.pushed v).length) ⟨∅, [fn], ∅⟩).map BlockClosure.blocks

/-- The blocks that are put into a split file, in order. -/
def SplitManifest.emittedBlocks (m : SplitManifest) (blockText : String → Option String)
    (need : Finset String) : List String :=
  m.topoSccs.filter fun b => b ∈ need ∧ (blockText b).any (· ≠ "")

/-- **The text of a split file**: the types and the blocks that are needed and have a text. -/
def SplitManifest.splitSource (m : SplitManifest) (structs : String) (blockText : String → Option String)
    (need : Finset String) : String :=
  "\n".intercalate ((structs :: (m.topoSccs.filter (· ∈ need)).filterMap blockText).filter (· ≠ ""))

/-- The text holds those of the emitted blocks, each where the block stands. -/
theorem SplitManifest.splitSource_eq (m : SplitManifest) (structs : String)
    (blockText : String → Option String) (need : Finset String) :
    m.splitSource structs blockText need = "\n".intercalate ([structs].filter (· ≠ "") ++
      (m.emittedBlocks blockText need).filterMap blockText) := by
  have hparts : ∀ l : List String, ((l.filter (· ∈ need)).filterMap blockText).filter (· ≠ "") =
      (l.filter fun b => b ∈ need ∧ (blockText b).any (· ≠ "")).filterMap blockText := by
    intro l
    induction l with
    | nil => rfl
    | cons b l ih =>
      by_cases hb : b ∈ need
      · cases htext : blockText b with
        | none => simpa [hb, htext] using ih
        | some text => by_cases htext' : text = "" <;> simpa [hb, htext, htext'] using ih
      · simpa [hb] using ih
  rw [splitSource, emittedBlocks, ← hparts, ← List.filter_append]
  rfl

/-! ## The loop -/

variable {m : SplitManifest}

/-- **A pass is one of the worklist**, with the newest entries first. -/
theorem SplitManifest.closurePass_worklist {s : BlockClosure} {w : Worklist String}
    (h : Worklist.pass m.pushed ⟨s.stack, s.seen⟩ = some w) : ∃ s', m.closurePass s = some s' ∧
      s'.seen = w.visited ∧ s'.stack.Perm w.queue ∧
      s'.blocks = s.blocks ∪ (w.visited \ s.seen).biUnion fun f => (m.blockOf f).toFinset := by
  obtain ⟨seen, stack, blocks⟩ := s
  cases stack with
  | nil => cases h
  | cons cur rest =>
    unfold Worklist.pass at h
    unfold closurePass
    dsimp only at h ⊢
    by_cases hcur : cur ∈ seen
    · rw [if_pos hcur] at h ⊢
      obtain rfl := Option.some.inj h
      exact ⟨_, rfl, rfl, .refl _, by simp⟩
    · rw [if_neg hcur] at h ⊢
      obtain rfl := Option.some.inj h
      have hnew : insert cur seen \ seen = {cur} := Finset.insert_sdiff_cancel hcur
      dsimp only
      rw [hnew, Finset.singleton_biUnion]
      cases hblock : m.blockOf cur with
      | none => exact ⟨_, rfl, rfl, by simp [pushed, hblock], by simp⟩
      | some blk =>
        refine ⟨_, rfl, rfl, ?_, by simp⟩
        simp only [pushed, hblock, Option.map_some, Option.getD_some]
        exact (List.perm_append_comm).trans (List.Perm.append_left rest (List.reverse_perm _))

/-- What the loop keeps: the invariant of the worklist, and the blocks of the functions seen. -/
structure BlockClosure.Inv (m : SplitManifest) (fn : String) (s : BlockClosure) : Prop where
  worklist : Worklist.Inv m.pushed [fn] ⟨s.stack, s.seen⟩
  blocks : ∀ b, b ∈ s.blocks ↔ ∃ f ∈ s.seen, m.blockOf f = some b

/-- **The closure is made, of the blocks of what is reached.** -/
theorem SplitManifest.closureBlocks_reach (hdeps : ∀ f d, d ∈ m.deps f → d ∈ m.functions) (fn : String) :
    ∃ blocks, m.closureBlocks fn = some blocks ∧
      ∀ b, b ∈ blocks ↔ ∃ f, Reach m.pushed fn f ∧ m.blockOf f = some b := by
  have hpushed : ∀ f, ∀ d ∈ m.pushed f, d ∈ (fn :: m.functions).toFinset := by
    intro f d hd
    unfold pushed at hd
    cases hblock : m.blockOf f with
    | none =>
      rw [hblock] at hd
      cases hd
    | some blk =>
      rw [hblock] at hd
      obtain ⟨member, -, hd⟩ := List.mem_flatMap.mp hd
      exact List.mem_toFinset.mpr (List.mem_cons_of_mem _ (hdeps member d hd))
  have hreach : ∀ f, Reach m.pushed fn f → f ∈ (fn :: m.functions).toFinset := fun f hf =>
    hf.closed (P := fun f => f ∈ (fn :: m.functions).toFinset) (fun u _ v hv => hpushed u v hv) (by simp)
  have hkeeps : ∀ s : BlockClosure, s.Inv m fn → (!s.stack.isEmpty) = true → ∃ s',
      m.closurePass s = some s' ∧ s'.Inv m fn ∧
        Worklist.pending m.pushed (fn :: m.functions).toFinset ⟨s'.stack, s'.seen⟩ <
          Worklist.pending m.pushed (fn :: m.functions).toFinset ⟨s.stack, s.seen⟩ := by
    rintro ⟨seen, stack, blocks⟩ hInv hcond
    obtain ⟨w, hw, hlt⟩ := Worklist.pass_pending m.pushed (fn :: m.functions).toFinset
      (s := ⟨stack, seen⟩) (by simpa using hcond) fun v hv => by
        obtain ⟨r, hr, hreach'⟩ := hInv.worklist.sound v (.inr hv)
        obtain rfl := List.mem_singleton.mp hr
        exact hreach v hreach'
    obtain ⟨s', hs', hseen, hstack, hblocks⟩ := closurePass_worklist (s := ⟨seen, stack, blocks⟩) hw
    have hsub : seen ⊆ w.visited := Worklist.pass_visited hw
    refine ⟨s', hs', ⟨?_, fun b => ?_⟩, ?_⟩
    · rw [hseen]
      exact (hInv.worklist.pass hw).perm hstack
    · rw [hblocks, hseen, Finset.mem_union, hInv.blocks]
      simp only [Finset.mem_biUnion, Finset.mem_sdiff, Option.mem_toFinset, Option.mem_def]
      constructor
      · rintro (⟨f, hf, hb⟩ | ⟨f, ⟨hf, -⟩, hb⟩)
        · exact ⟨f, hsub hf, hb⟩
        · exact ⟨f, hf, hb⟩
      · rintro ⟨f, hf, hb⟩
        by_cases hold : f ∈ seen
        · exact .inl ⟨f, hold, hb⟩
        · exact .inr ⟨f, ⟨hf, hold⟩, hb⟩
    · rw [hseen, Worklist.pending_perm _ _ _ hstack]
      exact hlt
  obtain ⟨s, hs, hInv, hdone⟩ := whileLoop_spec _ m.closurePass (BlockClosure.Inv m fn) _ hkeeps
    (1 + ∑ v ∈ (fn :: m.functions).toFinset, (m.pushed v).length) ⟨∅, [fn], ∅⟩ ⟨.start [fn], by simp⟩
    (by simp [Worklist.pending])
  refine ⟨s.blocks, by rw [closureBlocks, hs]; rfl, fun b => ?_⟩
  obtain ⟨seen, stack, blocks⟩ := s
  obtain rfl : stack = [] := by simpa using hdone
  have hseen : ∀ f, f ∈ seen ↔ Reach m.pushed fn f := by
    intro f
    constructor
    · intro hf
      obtain ⟨r, hr, hpath⟩ := hInv.worklist.sound f (.inl hf)
      obtain rfl := List.mem_singleton.mp hr
      exact hpath
    · intro hf
      exact hf.closed (P := (· ∈ seen)) (fun u hu v hv => by simpa using hInv.worklist.closed u hu v hv)
        (by simpa using hInv.worklist.roots fn (by simp))
  simp only [hInv.blocks, hseen]

/-! ## The plan -/

/-- **A split plan**: groups of functions whose names are identifiers, each function in one. -/
structure SplitPlan (sccs : List (List String)) : Prop where
  nonempty : ∀ group ∈ sccs, group ≠ []
  disjoint : sccs.flatten.Nodup
  identifiers : ∀ f ∈ sccs.flatten, '@' ∉ f.toList

/-- The name of a block says what its members are. -/
theorem blockMembers_blockName {group : List String} (hne : group ≠ [])
    (hnames : ∀ f ∈ group, '@' ∉ f.toList) : blockMembers (blockName group) = group := by
  have htoList : (blockName group).toList = ['@'].intercalate (group.map String.toList) :=
    String.toList_intercalate
  rw [blockMembers, htoList, List.splitOn_intercalate, List.map_map]
  · exact (List.map_congr_left fun f _ => String.ofList_toList).trans (List.map_id group)
  · intro l hl
    obtain ⟨f, hf, rfl⟩ := List.mem_map.mp hl
    exact hnames f hf
  · exact fun h => hne (List.map_eq_nil_iff.mp h)

namespace SplitPlan

variable {funcMap : FuncMap} {sccs : List (List String)} (h : SplitPlan sccs)

include h

/-- The name of a block determines its members. -/
theorem members {group : List String} (hgroup : group ∈ sccs) : blockMembers (blockName group) = group :=
  blockMembers_blockName (h.nonempty group hgroup) fun f hf =>
    h.identifiers f (List.mem_flatten.mpr ⟨group, hgroup, hf⟩)

/-- Two groups with one name are the same. -/
theorem blockName_inj {group group' : List String} (hgroup : group ∈ sccs) (hgroup' : group' ∈ sccs)
    (hname : blockName group = blockName group') : group = group' := by
  rw [← h.members hgroup, hname, h.members hgroup']

/-- A function is in one group. -/
theorem group_unique {group group' : List String} (hgroup : group ∈ sccs) (hgroup' : group' ∈ sccs)
    {f : String} (hf : f ∈ group) (hf' : f ∈ group') : group = group' := by
  by_contra hne
  obtain ⟨-, hdisjoint⟩ := List.nodup_flatten.mp h.disjoint
  have : Std.Symm (List.Disjoint : List String → List String → Prop) := ⟨fun _ _ h => h.symm⟩
  exact hdisjoint.forall hgroup hgroup' hne hf hf'

/-- **The block of a function is that of its group.** -/
theorem blockOf_iff {f b : String} :
    (splitManifest funcMap sccs).blockOf f = some b ↔ ∃ group ∈ sccs, f ∈ group ∧ blockName group = b := by
  show (sccs.reverse.find? fun group => f ∈ group).map blockName = some b ↔ _
  rw [Option.map_eq_some_iff]
  constructor
  · rintro ⟨group, hfind, hb⟩
    exact ⟨group, List.mem_reverse.mp (List.mem_of_find?_eq_some hfind),
      of_decide_eq_true (List.find?_some hfind :), hb⟩
  · rintro ⟨group, hgroup, hf, hb⟩
    cases hfind : sccs.reverse.find? fun group => f ∈ group with
    | none => exact absurd (decide_eq_true hf) (List.find?_eq_none.mp hfind group (List.mem_reverse.mpr hgroup))
    | some group' =>
      refine ⟨group', rfl, ?_⟩
      have hf' : f ∈ group' := of_decide_eq_true (List.find?_some hfind :)
      rw [h.group_unique (List.mem_reverse.mp (List.mem_of_find?_eq_some hfind)) hgroup hf' hf, hb]

/-- No function is in the order twice. -/
theorem topoSccs_nodup : (splitManifest funcMap sccs).topoSccs.Nodup := by
  have hnodup : sccs.Nodup := by
    refine (List.nodup_flatten.mp h.disjoint).2.imp_of_mem fun {group group'} hgroup _ hdisjoint heq => ?_
    obtain ⟨f, hf⟩ := List.exists_mem_of_ne_nil group (h.nonempty group hgroup)
    exact hdisjoint hf (heq ▸ hf)
  exact hnodup.map_on fun _ hgroup _ hgroup' hname => h.blockName_inj hgroup hgroup' hname

end SplitPlan

/-- The dependencies of a function are its callees, without the function itself. -/
theorem mem_deps {funcMap : FuncMap} {sccs : List (List String)} {f d : String} :
    d ∈ (splitManifest funcMap sccs).deps f ↔ funcMap.Callee f d ∧ d ≠ f := by
  show d ∈ sortedNames _ ↔ _
  rw [(sortedNames_perm _).mem_iff, List.mem_filter, decide_eq_true_eq, FuncMap.Callee, and_assoc]

/-- **The blocks that a function needs**: its own and, with a block, those of what a member depends on. -/
def NeededBlocks (funcMap : FuncMap) (sccs : List (List String)) (fn : String) (blocks : Set String) : Prop :=
  (∀ group ∈ sccs, fn ∈ group → blockName group ∈ blocks) ∧
    ∀ group ∈ sccs, blockName group ∈ blocks → ∀ member ∈ group, ∀ d, funcMap.Callee member d →
      ∀ group' ∈ sccs, d ∈ group' → blockName group' ∈ blocks

/-- What is pushed for a function of a group are the dependencies of its members. -/
theorem SplitPlan.mem_pushed {funcMap : FuncMap} {sccs : List (List String)} (h : SplitPlan sccs)
    {f d : String} : d ∈ (splitManifest funcMap sccs).pushed f ↔
      ∃ group ∈ sccs, f ∈ group ∧ ∃ member ∈ group, funcMap.Callee member d ∧ d ≠ member := by
  unfold SplitManifest.pushed
  cases hblock : (splitManifest funcMap sccs).blockOf f with
  | none =>
    refine ⟨nofun, ?_⟩
    rintro ⟨group, hgroup, hf, -⟩
    rw [h.blockOf_iff.mpr ⟨group, hgroup, hf, rfl⟩] at hblock
    cases hblock
  | some b =>
    obtain ⟨group, hgroup, hf, rfl⟩ := h.blockOf_iff.mp hblock
    show d ∈ (splitManifest funcMap sccs).blockDeps (blockName group) ↔ _
    rw [SplitManifest.blockDeps, h.members hgroup, List.mem_flatMap]
    constructor
    · rintro ⟨member, hmember, hd⟩
      exact ⟨group, hgroup, hf, member, hmember, mem_deps.mp hd⟩
    · rintro ⟨group', hgroup', hf', member, hmember, hd⟩
      obtain rfl := h.group_unique hgroup' hgroup hf' hf
      exact ⟨member, hmember, mem_deps.mpr hd⟩

/-- **The closure of a function is the least set of blocks that holds what it needs.** -/
theorem SplitPlan.closureBlocks_least (funcMap : FuncMap) {sccs : List (List String)} (h : SplitPlan sccs)
    (fn : String) : ∃ blocks, (splitManifest funcMap sccs).closureBlocks fn = some blocks ∧
      IsLeast {S : Set String | NeededBlocks funcMap sccs fn S} ↑blocks := by
  have hdeps : ∀ f d, d ∈ (splitManifest funcMap sccs).deps f → d ∈ (splitManifest funcMap sccs).functions :=
    fun f d hd => (mem_deps.mp hd).1.2
  obtain ⟨blocks, hblocks, hmem⟩ := SplitManifest.closureBlocks_reach hdeps fn
  refine ⟨blocks, hblocks, ⟨?_, ?_⟩, ?_⟩
  · intro group hgroup hfn
    exact (hmem _).mpr ⟨fn, .refl fn, h.blockOf_iff.mpr ⟨group, hgroup, hfn, rfl⟩⟩
  · intro group hgroup hb member hmember d hd group' hgroup' hd'
    obtain ⟨f, hf, hblock⟩ := (hmem _).mp hb
    obtain ⟨groupf, hgroupf, hfgroup, hname⟩ := h.blockOf_iff.mp hblock
    obtain rfl := h.blockName_inj hgroupf hgroup hname
    by_cases hself : d = member
    · obtain rfl := h.group_unique hgroup' hgroup hd' (hself ▸ hmember)
      exact hb
    · have hpushed : d ∈ (splitManifest funcMap sccs).pushed f :=
        h.mem_pushed.mpr ⟨groupf, hgroupf, hfgroup, member, hmember, hd, hself⟩
      exact (hmem _).mpr ⟨d, hf.trans (.edge hpushed), h.blockOf_iff.mpr ⟨group', hgroup', hd', rfl⟩⟩
  · intro S hS b hb
    obtain ⟨f, hf, hblock⟩ := (hmem b).mp hb
    have hreached : ∀ group ∈ sccs, f ∈ group → blockName group ∈ S := by
      clear hblock
      induction hf with
      | refl => exact hS.1
      | @tail f d _ hpushed ih =>
        intro group hgroup hd
        obtain ⟨groupf, hgroupf, hfgroup, member, hmember, hcallee, -⟩ := h.mem_pushed.mp hpushed
        exact hS.2 groupf hgroupf (ih groupf hgroupf hfgroup) member hmember d hcallee group hgroup hd
    obtain ⟨group, hgroup, hfgroup, rfl⟩ := h.blockOf_iff.mp hblock
    exact hreached group hgroup hfgroup

/-! ## What is emitted -/

/-- A block that a function needs stands in the order. -/
theorem SplitPlan.needed_mem_topo {funcMap : FuncMap} {sccs : List (List String)} {fn : String}
    {blocks : Finset String} (hleast : IsLeast {S : Set String | NeededBlocks funcMap sccs fn S} ↑blocks)
    {b : String} (hb : b ∈ blocks) : b ∈ (splitManifest funcMap sccs).topoSccs := by
  have hneeded : NeededBlocks funcMap sccs fn {b | b ∈ (splitManifest funcMap sccs).topoSccs} :=
    ⟨fun _ hgroup _ => List.mem_map_of_mem hgroup,
      fun _ _ _ _ _ _ _ _ hgroup' _ => List.mem_map_of_mem hgroup'⟩
  exact hleast.2 hneeded hb

/-- In the order of the components the blocks of callees come first. -/
theorem SplitPlan.callee_before {funcMap : FuncMap} {sccs : List (List String)} (h : SplitPlan sccs)
    (hgroups : funcMap.Groups sccs) (p : String → Bool) {before after : List String} {group : List String}
    (hgroup : group ∈ sccs)
    (hsplit : (splitManifest funcMap sccs).topoSccs.filter p = before ++ blockName group :: after)
    {member callee : String} (hmember : member ∈ group) (hcallee : funcMap.Callee member callee)
    {group' : List String} (hgroup' : group' ∈ sccs) (hin : callee ∈ group') (hne : group' ≠ group)
    (hp : p (blockName group') = true) : blockName group' ∈ before := by
  obtain ⟨earlier, later, hsccs⟩ := List.append_of_mem hgroup
  have hpgroup : p (blockName group) = true := by
    have hmem : blockName group ∈ (splitManifest funcMap sccs).topoSccs.filter p := by
      rw [hsplit]
      exact List.mem_append_right _ List.mem_cons_self
    exact (List.mem_filter.mp hmem).2
  have hfilter : (splitManifest funcMap sccs).topoSccs.filter p =
      (earlier.map blockName).filter p ++ blockName group :: (later.map blockName).filter p := by
    show (sccs.map blockName).filter p = _
    rw [hsccs, List.map_append, List.map_cons, List.filter_append, List.filter_cons_of_pos hpgroup]
  have hnodup : (before ++ blockName group :: after).Nodup := by
    rw [← hsplit]
    exact h.topoSccs_nodup.filter p
  obtain ⟨hbefore, -⟩ := (List.append_cons_inj_of_notMem
    (List.disjoint_right.mp (List.nodup_append'.mp hnodup).2.2 List.mem_cons_self)
    (List.nodup_cons.mp (List.nodup_append'.mp hnodup).2.1).1).mp (hsplit.symm.trans hfilter)
  rw [hbefore]
  refine List.mem_filter.mpr ⟨List.mem_map_of_mem ?_, hp⟩
  rcases hgroups.calleesFirst earlier group later hsccs member hmember callee hcallee with hsame | hearlier
  · exact absurd (h.group_unique hgroup' hgroup hin hsame) hne
  · obtain ⟨group'', hgroup'', hin''⟩ := List.mem_flatten.mp hearlier
    have hmem : group'' ∈ sccs := hsccs ▸ List.mem_append_left _ hgroup''
    rwa [h.group_unique hgroup' hmem hin hin'']

/-- **The split files hold what a function needs.** The closure is the least set of blocks closed under
the dependencies of their members; each block of it that has a text is emitted once and nothing else is;
and in the order that the components are found in, a block comes after those that it calls. -/
theorem closureBlocks_split (funcMap : FuncMap) (sccs : List (List String)) (h : SplitPlan sccs)
    (fn : String) (structs : String) (blockText : String → Option String) :
    ∃ blocks, (splitManifest funcMap sccs).closureBlocks fn = some blocks ∧
      IsLeast {S : Set String | NeededBlocks funcMap sccs fn S} ↑blocks ∧
      (splitManifest funcMap sccs).splitSource structs blockText blocks =
        "\n".intercalate ([structs].filter (· ≠ "") ++
          ((splitManifest funcMap sccs).emittedBlocks blockText blocks).filterMap blockText) ∧
      (∀ b, ((splitManifest funcMap sccs).emittedBlocks blockText blocks).count b =
        if b ∈ blocks ∧ (blockText b).any (· ≠ "") then 1 else 0) ∧
      (findStronglyConnectedComponents funcMap = some sccs → ∀ before group after, group ∈ sccs →
        (splitManifest funcMap sccs).emittedBlocks blockText blocks = before ++ blockName group :: after →
        ∀ member ∈ group, ∀ callee, funcMap.Callee member callee → ∀ group' ∈ sccs, callee ∈ group' →
          group' ≠ group → (blockText (blockName group')).any (· ≠ "") → blockName group' ∈ before) := by
  obtain ⟨blocks, hblocks, hleast⟩ := h.closureBlocks_least funcMap fn
  refine ⟨blocks, hblocks, hleast, SplitManifest.splitSource_eq _ _ _ _, ?_, ?_⟩
  · intro b
    have hnodup : ((splitManifest funcMap sccs).emittedBlocks blockText blocks).Nodup :=
      h.topoSccs_nodup.filter _
    rw [hnodup.count]
    refine if_congr ?_ rfl rfl
    rw [SplitManifest.emittedBlocks, List.mem_filter, decide_eq_true_eq]
    exact ⟨And.right, fun hb => ⟨SplitPlan.needed_mem_topo hleast hb.1, hb⟩⟩
  · intro hsccs before group after hgroup hsplit member hmember callee hcallee group' hgroup' hin hne htext
    obtain ⟨sccs', hsccs', hgroups⟩ := findStronglyConnectedComponents_groups funcMap
    obtain rfl := Option.some.inj (hsccs.symm.trans hsccs')
    refine h.callee_before hgroups _ hgroup hsplit hmember hcallee hgroup' hin hne (decide_eq_true ⟨?_, htext⟩)
    have hin_blocks : blockName group ∈ blocks := by
      have hmem : blockName group ∈ (splitManifest funcMap sccs).emittedBlocks blockText blocks := by
        rw [hsplit]
        exact List.mem_append_right _ List.mem_cons_self
      exact (of_decide_eq_true (List.mem_filter.mp hmem).2).1
    exact hleast.1.2 group hgroup hin_blocks member hmember callee hcallee group' hgroup' hin

/-- `f` calls `g` and `h`, which call each other; `k` calls `f`. -/
def splitFunctions : FuncMap := .ofEdges [("k", ["f"]), ("f", ["g"]), ("g", ["h"]), ("h", ["g"])] (by decide)

/-- The groups of `splitFunctions`, in the order they are found. -/
def splitGroups : List (List String) := [["g", "h"], ["f"], ["k"]]

/-- The theorem at a split with a cycle of two functions. -/
theorem closureBlocks_split_splitFunctions :
    ∃ blocks, (splitManifest splitFunctions splitGroups).closureBlocks "f" = some blocks ∧
      ∀ before after, (splitManifest splitFunctions splitGroups).emittedBlocks some blocks =
        before ++ "f" :: after → "g@h" ∈ before := by
  have hplan : SplitPlan splitGroups := ⟨by decide, by decide, by decide⟩
  obtain ⟨blocks, hblocks, -, -, -, horder⟩ :=
    closureBlocks_split splitFunctions splitGroups hplan "f" "" some
  refine ⟨blocks, hblocks, fun before after hsplit => ?_⟩
  exact horder (by decide +kernel) before ["f"] after (by decide) hsplit "f" (by decide) "g"
    ⟨by decide, by decide⟩ ["g", "h"] (by decide) (by decide) (by decide) (by decide)

end Assure
