import MethodLowering.Check
import MethodLowering.Proofs.Flow.ImmediateDominators

/-!
Coverage of checks. What a block knows on entry from its immediate dominator is what all its strict
dominators ask about, so elimination drops from the blocks that the entry reaches exactly the
checks of classes without initializer and those asked about before on every path.
-/

set_option autoImplicit false
set_option relaxedAutoImplicit false

namespace MethodLowering

abbrev Instr.AsksAbout (name : String) (instr : Instr) : Prop := instr.guardedClass? = some name

namespace Body

variable (body : Body)

def Contains (p : Instr → Prop) (block : Nat) : Prop :=
  ∃ b, body.blocks[block]? = some b ∧ ∃ instr ∈ b.code, p instr

/-- Some block that lies on every path to the block, itself apart, has an instruction of this
kind. -/
def OnEntry (p : Instr → Prop) (block : Nat) : Prop :=
  ∃ d, d ≠ block ∧ body.graph.Dominates d block ∧ body.Contains p d

/-- An instruction of this kind stands in the block before the index, or in a block that lies on
every path to it. -/
def Before (p : Instr → Prop) (block index : Nat) : Prop :=
  (∃ b, body.blocks[block]? = some b ∧ ∃ instr ∈ b.code.take index, p instr) ∨
    body.OnEntry p block

/-- The instruction with this index in the block is a check that can be left out: of a class
without initializer, or of one asked about before. -/
def Needless (hasInitializer : String → Bool) (block index : Nat) (instr : Instr) : Prop :=
  ∃ name, instr = .check name ∧
    (hasInitializer name = false ∨ body.Before (Instr.AsksAbout name) block index)

open Classical in
/-- The code of the block from the index on, without the checks that can be left out. -/
noncomputable def neededCode (hasInitializer : String → Bool) (block index : Nat)
    (code : List Instr) : List Instr :=
  ((code.zipIdx index).filter fun item =>
    decide (¬ body.Needless hasInitializer block item.2 item.1)).map Prod.fst

/-- The body `result` is `body` without the checks that can be left out in blocks reached. -/
structure Eliminated (hasInitializer : String → Bool) (result : Body) : Prop where
  vars : result.vars = body.vars
  length : result.blocks.length = body.blocks.length
  unreached : ∀ (number : Nat) (block : Block), body.blocks[number]? = some block →
    ¬ body.graph.Reaches 0 number → result.blocks[number]? = some block
  reached : ∀ (number : Nat) (block : Block), body.blocks[number]? = some block →
    body.graph.Reaches 0 number → result.blocks[number]? =
      some ⟨body.neededCode hasInitializer number 0 block.code, block.terminator⟩

end Body

namespace Elimination

variable {hasInitializer : String → Bool} {name : String} {known : List String} {instr : Instr}
  {code : List Instr}

theorem mem_learn_iff (hname : hasInitializer name = true) :
    name ∈ learn hasInitializer known instr ↔
      name ∈ known ∨ instr.guardedClass? = some name := by
  cases instr with
  | check other =>
    by_cases hother : other = name
    · simp [learn, Instr.guardedClass?, hother, hname]
    · have hne : name ≠ other := Ne.symm hother
      cases hhas : hasInitializer other <;> simp [learn, Instr.guardedClass?, hhas, hne, hother]
  | test dest other =>
    simp [learn, Instr.guardedClass?, or_comm, eq_comm]
  | _ => simp [learn, Instr.guardedClass?]

theorem mem_foldl_learn_iff (hname : hasInitializer name = true) :
    name ∈ code.foldl (learn hasInitializer) known ↔
      name ∈ known ∨ ∃ instr ∈ code, instr.guardedClass? = some name := by
  induction code generalizing known with
  | nil => simp
  | cons instr code ih =>
    rw [List.foldl_cons, ih, mem_learn_iff hname, or_assoc]
    simp

theorem judge_eq_keep_iff :
    judge hasInitializer known instr = .keep ↔
      ¬ ∃ name, instr = .check name ∧ (hasInitializer name = false ∨ name ∈ known) := by
  cases instr with
  | check name =>
    cases hhas : hasInitializer name with
    | false => simp [judge, hhas]
    | true => by_cases hmem : name ∈ known <;> simp [judge, hhas, hmem]
  | _ => simp [judge]

theorem survivors_sift (keeps : Instr × Nat → Bool) (start : Nat)
    (hkeeps : ∀ k instr, code[k]? = some instr → (keeps (instr, start + k) = true ↔
      judge hasInitializer ((code.take k).foldl (learn hasInitializer) known) instr = .keep)) :
    survivors (sift hasInitializer known code) =
      ((code.zipIdx start).filter keeps).map Prod.fst := by
  induction code generalizing known start with
  | nil => rfl
  | cons instr code ih =>
    have hfirst : keeps (instr, start) = true ↔ judge hasInitializer known instr = .keep :=
      hkeeps 0 instr rfl
    have hrest : survivors (sift hasInitializer (learn hasInitializer known instr) code) =
        ((code.zipIdx (start + 1)).filter keeps).map Prod.fst := by
      apply ih
      intro k other hother
      have hlater := hkeeps (k + 1) other hother
      rwa [← Nat.add_assoc, Nat.add_right_comm] at hlater
    rw [List.zipIdx_cons, List.filter_cons]
    by_cases hkeep : judge hasInitializer known instr = .keep
    · rw [if_pos (hfirst.2 hkeep), List.map_cons, ← hrest]
      simp [survivors, sift, hkeep]
    · rw [if_neg (fun h => hkeep (hfirst.1 h)), ← hrest]
      simp [survivors, sift, hkeep]

open MethodLowering.Graph

variable {body : Body} {idoms : List (Option Nat)} {order finished rest : List Nat}
  {exits : List (Nat × List String)} {block d : Nat}

/-- What the exits say of a finished block: the classes that its dominators ask about. -/
private def Exits (hasInitializer : String → Bool) (body : Body) (exits : List (Nat × List String))
    (block : Nat) : Prop :=
  ∃ known, exits.lookup block = some known ∧ ∀ name, hasInitializer name = true →
    (name ∈ known ↔ ∃ d, body.graph.Dominates d block ∧ body.Contains (Instr.AsksAbout name) d)

/-- What is known on entry to a block: the classes that its strict dominators ask about. -/
private def Entered (hasInitializer : String → Bool) (body : Body) (known : List String)
    (block : Nat) : Prop :=
  ∀ name, hasInitializer name = true → (name ∈ known ↔ body.OnEntry (Instr.AsksAbout name) block)

private theorem contains_iff {p : Instr → Prop} {b : Block} (hb : body.blocks[block]? = some b) :
    body.Contains p block ↔ ∃ instr ∈ b.code, p instr := by
  unfold Body.Contains
  rw [hb]
  simp

private theorem onEntry_iff {p : Instr → Prop} (horder : body.graph.ReversePostorder order)
    (hclosed : body.graph.Closed) (hblock : body.graph.Reachable block)
    (hidom : body.graph.ImmediatelyDominates d block) :
    body.OnEntry p block ↔ ∃ e, body.graph.Dominates e d ∧ body.Contains p e := by
  obtain ⟨hdom, hne, hnearest⟩ := hidom
  constructor
  · rintro ⟨e, hblockne, he, hp⟩
    exact ⟨e, hnearest e he hblockne, hp⟩
  · rintro ⟨e, he, hp⟩
    refine ⟨e, ?_, he.trans hdom, hp⟩
    rintro rfl
    exact hne (horder.dominates_antisymm hclosed hblock hdom he)

private theorem entered_knownOnEntry (horder : body.graph.ReversePostorder order)
    (hclosed : body.graph.Closed) (hidoms : body.graph.ImmediateDominators idoms)
    (hsplit : order = finished ++ block :: rest)
    (hexits : ∀ d ∈ finished, Exits hasInitializer body exits d) :
    Entered hasInitializer body (knownOnEntry idoms exits block) block := by
  have hmem : block ∈ order := hsplit ▸ List.mem_append_right _ List.mem_cons_self
  have hblock : body.graph.Reachable block := (horder.mem_iff block).1 hmem
  intro name hname
  by_cases hentry : block = 0
  · have hself : idoms[block]? = some (some block) := by
      rw [hentry]
      exact hidoms.entry (Nat.lt_of_le_of_lt (Nat.zero_le _) hblock.1)
    have hknown : knownOnEntry idoms exits block = [] := by simp [knownOnEntry, hself]
    rw [hknown]
    refine ⟨fun h => absurd h List.not_mem_nil, ?_⟩
    rintro ⟨d, hne, hdom, -⟩
    rw [hentry, dominates_entry_iff] at hdom
    exact absurd (hdom.trans hentry.symm) hne
  · obtain ⟨d, hfound, hidom⟩ := hidoms.reached block hblock hentry
    have hfinished : d ∈ finished :=
      horder.mem_of_dominates hclosed hsplit hidom.1 hidom.2.1
    obtain ⟨known, hlookup, hknown⟩ := hexits d hfinished
    have heq : knownOnEntry idoms exits block = known := by
      simp [knownOnEntry, hfound, hidom.2.1, hlookup]
    rw [heq, hknown name hname, onEntry_iff horder hclosed hblock hidom]

private theorem exits_cons {known : List String} {b : Block} (hb : body.blocks[block]? = some b)
    (hknown : Entered hasInitializer body known block) :
    Exits hasInitializer body ((block, b.code.foldl (learn hasInitializer) known) :: exits)
      block := by
  refine ⟨_, List.lookup_cons_self, fun name hname => ?_⟩
  rw [mem_foldl_learn_iff hname, hknown name hname, ← contains_iff hb]
  constructor
  · rintro (⟨d, -, hdom, hasks⟩ | hasks)
    · exact ⟨d, hdom, hasks⟩
    · exact ⟨block, dominates_self _ block, hasks⟩
  · rintro ⟨d, hdom, hasks⟩
    by_cases hd : d = block
    · exact .inr (hd ▸ hasks)
    · exact .inl ⟨d, hd, hdom, hasks⟩

/-- The blocks are judged under what their strict dominators ask about. -/
private theorem judgeBlocks_eq_some (horder : body.graph.ReversePostorder order)
    (hclosed : body.graph.Closed) (hidoms : body.graph.ImmediateDominators idoms)
    (hsplit : order = finished ++ rest)
    (hexits : ∀ d ∈ finished, Exits hasInitializer body exits d) :
    ∃ plan, judgeBlocks hasInitializer body idoms rest exits = some plan ∧
      (∀ block ∉ rest, plan.lookup block = none) ∧
      ∀ block ∈ rest, ∀ b, body.blocks[block]? = some b → ∃ known,
        plan.lookup block = some (sift hasInitializer known b.code) ∧
        Entered hasInitializer body known block := by
  induction rest generalizing finished exits with
  | nil => exact ⟨[], rfl, fun _ _ => rfl, fun block hblock => absurd hblock List.not_mem_nil⟩
  | cons block rest ih =>
    have hmem : block ∈ order := hsplit ▸ List.mem_append_right _ List.mem_cons_self
    have hsize : block < body.blocks.length := body.size_graph ▸ ((horder.mem_iff block).1 hmem).1
    have hb : body.blocks[block]? = some body.blocks[block] := List.getElem?_eq_getElem hsize
    have hknown := entered_knownOnEntry horder hclosed hidoms hsplit hexits
    have hnodup : (finished ++ block :: rest).Nodup := hsplit ▸ horder.nodup
    have hkept : ∀ d ∈ finished ++ [block], Exits hasInitializer body ((block,
        body.blocks[block].code.foldl (learn hasInitializer)
          (knownOnEntry idoms exits block)) :: exits) d := by
      intro d hd
      rcases List.mem_append.1 hd with hbefore | hlast
      · have hne : d ≠ block := by
          rintro rfl
          exact (List.nodup_append.1 hnodup).2.2 d hbefore d List.mem_cons_self rfl
        obtain ⟨known, hlookup, hspec⟩ := hexits d hbefore
        exact ⟨known, by rw [List.lookup_cons, beq_false_of_ne hne]; exact hlookup, hspec⟩
      · rw [List.mem_singleton.1 hlast]
        exact exits_cons hb hknown
    obtain ⟨plan, hplan, hout, hin⟩ := ih (hsplit.trans (by simp)) hkept
    refine ⟨(block, sift hasInitializer (knownOnEntry idoms exits block) body.blocks[block].code)
      :: plan, ?_, ?_, ?_⟩
    · simp only [judgeBlocks, hb, hplan, Option.map_some]
    · intro other hother
      rw [List.mem_cons, not_or] at hother
      rw [List.lookup_cons, beq_false_of_ne hother.1]
      exact hout other hother.2
    · intro other hother c hc
      by_cases hsame : other = block
      · subst hsame
        rw [hb, Option.some.injEq] at hc
        exact ⟨_, hc ▸ List.lookup_cons_self, hknown⟩
      · rw [List.lookup_cons, beq_false_of_ne hsame]
        exact hin other ((List.mem_cons.1 hother).resolve_left hsame) c hc

private theorem survivors_eq {known : List String} {b : Block} (hb : body.blocks[block]? = some b)
    (hknown : Entered hasInitializer body known block) :
    survivors (sift hasInitializer known b.code) =
      body.neededCode hasInitializer block 0 b.code := by
  classical
  refine survivors_sift _ 0 fun k instr hinstr => ?_
  rw [decide_eq_true_iff, judge_eq_keep_iff, Nat.zero_add]
  refine not_congr (exists_congr fun name => and_congr_right fun _ => ?_)
  cases hname : hasInitializer name with
  | false => simp
  | true =>
    have hbefore : body.Before (Instr.AsksAbout name) block k ↔
        name ∈ (b.code.take k).foldl (learn hasInitializer) known := by
      rw [mem_foldl_learn_iff hname, hknown name hname, or_comm]
      unfold Body.Before
      rw [hb]
      simp
    simp [hbefore]

end Elimination

namespace Body

open Elimination

variable {body : Body}

theorem eliminate?_of_closed (hasInitializer : String → Bool) (hclosed : body.graph.Closed) :
    ∃ result, body.eliminate? hasInitializer = some result ∧
      body.Eliminated hasInitializer result := by
  obtain ⟨idoms, hfound, hidoms⟩ := Graph.immediateDominators?_of_closed hclosed
  obtain ⟨order, hordered, horder⟩ :=
    Graph.reversePostorder?_of_closedFromEntry hclosed.fromEntry
  have hstart : ∀ d ∈ ([] : List Nat), Exits hasInitializer body [] d := fun d hd =>
    absurd hd List.not_mem_nil
  obtain ⟨plan, hplan, hout, hin⟩ :=
    judgeBlocks_eq_some horder hclosed hidoms (List.nil_append order).symm hstart
  refine ⟨plan.apply body, ?_, rfl, List.length_mapIdx, ?_, ?_⟩
  · simp only [eliminate?, plan?, hfound, hordered, Option.bind_some, hplan, Option.map_some]
  · intro number block hblock hreaches
    have hlookup : plan.lookup number = none :=
      hout number fun hmem => hreaches ((horder.mem_iff number).1 hmem).2
    simp [Plan.apply, hblock, hlookup]
  · intro number block hblock hreaches
    have hsize : number < body.graph.size :=
      body.size_graph ▸ (List.getElem?_eq_some_iff.1 hblock).1
    obtain ⟨known, hlookup, hknown⟩ :=
      hin number ((horder.mem_iff number).2 ⟨hsize, hreaches⟩) block hblock
    simp [Plan.apply, hblock, hlookup, survivors_eq hblock hknown]

open Classical in
/-- Elimination succeeds on every closed body and keeps its variables, the number of its blocks,
their terminators, and the blocks that the entry does not reach. From a block reached it drops the
checks of classes without initializer and those of classes asked about before on every path, and
leaves all else as it stands. -/
theorem eliminate?_exact (hasInitializer : String → Bool) (body : Body)
    (hclosed : body.graph.Closed) :
    ∃ result, body.eliminate? hasInitializer = some result ∧
      result.vars = body.vars ∧ result.blocks.length = body.blocks.length ∧
      ∀ (number : Nat) (block : Block), body.blocks[number]? = some block →
        ∃ code, result.blocks[number]? = some ⟨code, block.terminator⟩ ∧
          (¬ body.graph.Reaches 0 number → code = block.code) ∧
          (body.graph.Reaches 0 number → code = (block.code.zipIdx.filter fun item =>
            decide (¬ body.Needless hasInitializer number item.2 item.1)).map Prod.fst) := by
  obtain ⟨result, hresult, helim⟩ := eliminate?_of_closed hasInitializer hclosed
  refine ⟨result, hresult, helim.vars, helim.length, fun number block hblock => ?_⟩
  by_cases hreaches : body.graph.Reaches 0 number
  · exact ⟨_, helim.reached number block hblock hreaches, fun h => absurd hreaches h, fun _ => rfl⟩
  · exact ⟨_, helim.unreached number block hblock hreaches, fun _ => rfl,
      fun h => absurd h hreaches⟩

/-- A loop between checks, and a block of checks that nothing leads to. -/
def checkedLoop : Body where
  vars := [⟨none, none⟩]
  blocks := [⟨[.check "A", .check "N"], .jump 1⟩, ⟨[.test 0 "B"], .branch 0 2 3⟩,
    ⟨[.check "A", .check "B", .check "C"], .jump 1⟩, ⟨[.check "C", .check "C"], .exit none⟩,
    ⟨[.check "N", .check "A", .check "A"], .jump 3⟩]

open Classical in
theorem eliminate?_exact_checkedLoop :
    checkedLoop.graph.Closed ∧
      ∃ result, checkedLoop.eliminate? (· != "N") = some result ∧
        result.vars = checkedLoop.vars ∧ result.blocks.length = checkedLoop.blocks.length ∧
        ∀ (number : Nat) (block : Block), checkedLoop.blocks[number]? = some block →
          ∃ code, result.blocks[number]? = some ⟨code, block.terminator⟩ ∧
            (¬ checkedLoop.graph.Reaches 0 number → code = block.code) ∧
            (checkedLoop.graph.Reaches 0 number → code = (block.code.zipIdx.filter fun item =>
              decide (¬ checkedLoop.Needless (· != "N") number item.2 item.1)).map Prod.fst) :=
  ⟨by decide, eliminate?_exact (· != "N") checkedLoop (by decide)⟩

example : (checkedLoop.eliminate? (· != "N")).map (fun result => result.blocks.map Block.code) =
    some [[.check "A"], [.test 0 "B"], [.check "C"], [.check "C"],
      [.check "N", .check "A", .check "A"]] := by cbv

end Body

end MethodLowering
