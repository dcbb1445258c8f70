import Mathlib.Data.List.Perm.Basic
import Mathlib.Data.List.Range
import MethodLowering.Proofs.Check.Spelling

/-!
The shape of expanded bodies. A block with checks becomes a chain of blocks that starts at its own
number, with two more blocks and one variable for each check. The chains of all blocks share out the
new numbers: the worklist gives each of them away once, though the chain of a block that is split
several times is continued only after blocks of other chains were appended.
-/

set_option autoImplicit false
set_option relaxedAutoImplicit false

namespace MethodLowering

namespace Expansion

/-- What a check was replaced by: the block that goes on behind it, the block that runs the
initializer, and the variable that takes the answer of the test. -/
structure Link where
  next : Nat
  init : Nat
  flag : Nat

def Link.blocks (link : Link) : List Nat := [link.next, link.init]

/-- From the number on, the blocks hold the code up to its first check, the test of the class and
the call of its initializer, and so on behind the check, with one link for each check. -/
inductive Chain (blocks : List Block) : Nat → List Instr → Terminator → List Link → Prop
  | last {number : Nat} {code : List Instr} {terminator : Terminator} :
      (∀ instr ∈ code, instr.isCheck = false) → blocks[number]? = some ⟨code, terminator⟩ →
      Chain blocks number code terminator []
  | split {number : Nat} {before after : List Instr} {name : String} {terminator : Terminator}
      {link : Link} {links : List Link} :
      (∀ instr ∈ before, instr.isCheck = false) →
      blocks[number]? =
        some ⟨before ++ [.test link.flag name], .branch link.flag link.next link.init⟩ →
      blocks[link.init]? =
        some ⟨[.invoke none none (MethodRef.classInitializer name) []], .jump link.next⟩ →
      Chain blocks link.next after terminator links →
      Chain blocks number (before ++ .check name :: after) terminator (link :: links)

/-- The blocks hold the chains of the pending blocks, the first of which has the given number; the
links of these chains share out the numbers behind the pending blocks and the variables from `flag`
on. -/
structure Chains (blocks : List Block) (number flag : Nat) (pending : List Block)
    (links : Nat → List Link) : Prop where
  chain : ∀ i block, pending[i]? = some block →
    Chain blocks (number + i) block.code block.terminator (links i)
  numbers : (((List.range pending.length).flatMap links).flatMap Link.blocks).Perm
    (List.range' (number + pending.length) (2 * checkCount pending))
  flags : (((List.range pending.length).flatMap links).map Link.flag).Perm
    (List.range' flag (checkCount pending))

variable {number flag next : Nat} {blocks pending rest : List Block} {block first : Block}
  {code before after : List Instr} {name : String} {terminator : Terminator} {links : List Link}
  {chains : Nat → List Link}

/-! ### Splitting code at its first check -/

theorem splitAtCheck?_eq_none_iff :
    splitAtCheck? code = none ↔ ∀ instr ∈ code, instr.isCheck = false := by
  induction code with
  | nil => simp [splitAtCheck?]
  | cons instr code ih =>
    cases hinstr : instr.isCheck with
    | true =>
      obtain ⟨name, rfl⟩ := eq_check_of_isCheck hinstr
      simp [splitAtCheck?, Instr.isCheck]
    | false => simp [splitAtCheck?_cons hinstr, ih, hinstr]

theorem of_splitAtCheck? (h : splitAtCheck? code = some (before, name, after)) :
    code = before ++ .check name :: after ∧ ∀ instr ∈ before, instr.isCheck = false := by
  induction code generalizing before with
  | nil => exact absurd h nofun
  | cons instr code ih =>
    cases hinstr : instr.isCheck with
    | true =>
      obtain ⟨checked, rfl⟩ := eq_check_of_isCheck hinstr
      cases h
      exact ⟨rfl, fun instr hmem => absurd hmem List.not_mem_nil⟩
    | false =>
      rw [splitAtCheck?_cons hinstr, Option.map_eq_some_iff] at h
      obtain ⟨⟨before', name', after'⟩, hcode, heq⟩ := h
      cases heq
      obtain ⟨rfl, hbefore⟩ := ih hcode
      exact ⟨rfl, List.forall_mem_cons.2 ⟨hinstr, hbefore⟩⟩

/-! ### Counting checks -/

theorem checkCount_cons (block : Block) (rest : List Block) :
    checkCount (block :: rest) = block.code.countP Instr.isCheck + checkCount rest := by
  simp [checkCount]

theorem checkCount_eq_zero_iff :
    checkCount pending = 0 ↔ ∀ block ∈ pending, ∀ instr ∈ block.code, instr.isCheck = false := by
  simp only [checkCount, List.countP_eq_zero, List.mem_flatMap, Bool.not_eq_true]
  exact ⟨fun h block hblock instr hinstr => h instr ⟨block, hblock, hinstr⟩,
    fun h instr ⟨block, hblock, hinstr⟩ => h block hblock instr hinstr⟩

theorem checkCount_of_plain (hsplit : splitAtCheck? first.code = none) :
    checkCount (first :: rest) = checkCount rest := by
  rw [checkCount_cons, List.countP_eq_zero.2 (by simpa using splitAtCheck?_eq_none_iff.1 hsplit),
    Nat.zero_add]

theorem checkCount_of_split (next : Nat)
    (hsplit : splitAtCheck? first.code = some (before, name, after)) :
    checkCount (first :: rest) =
      checkCount (rest ++ [⟨after, first.terminator⟩, initBlock name next]) + 1 := by
  have hcount := countP_of_splitAtCheck? hsplit
  simp only [checkCount, List.flatMap_cons, List.flatMap_append, List.flatMap_nil, List.append_nil,
    List.countP_append, initBlock, hcount, List.countP_cons, List.countP_nil, Instr.isCheck]
  simp only [Bool.false_eq_true, if_false]
  omega

/-! ### What the worklist builds -/

theorem length_expandFrom (number flag : Nat) (pending : List Block) :
    (expandFrom number flag pending).length = pending.length + 2 * checkCount pending := by
  fun_induction expandFrom number flag pending with
  | case1 => rfl
  | case2 number flag first rest hsplit ih =>
    rw [List.length_cons, ih, checkCount_of_plain hsplit, List.length_cons]
    omega
  | case3 number flag first rest before name after hsplit next ih =>
    rw [List.length_cons, ih, checkCount_of_split next hsplit, List.length_append]
    simp only [List.length_cons, List.length_nil]
    omega

theorem filterMap_split?_expandFrom {α : Type} (a : α) (number flag : Nat)
    (pending : List Block) :
    ((expandFrom number flag pending).filterMap fun piece => piece.split?.map fun _ => a) =
      List.replicate (checkCount pending) a := by
  fun_induction expandFrom number flag pending with
  | case1 => rfl
  | case2 number flag first rest hsplit ih =>
    rw [checkCount_of_plain hsplit, ← ih]
    rfl
  | case3 number flag first rest before name after hsplit next ih =>
    rw [checkCount_of_split next hsplit, List.replicate_succ, ← ih]
    rfl

theorem isCheck_of_mem_expandFrom {piece : Piece}
    (hpiece : piece ∈ expandFrom number flag pending) :
    ∀ instr ∈ piece.block.code, instr.isCheck = false := by
  fun_induction expandFrom number flag pending with
  | case1 => exact absurd hpiece List.not_mem_nil
  | case2 number flag first rest hsplit ih =>
    obtain rfl | hrest := List.mem_cons.1 hpiece
    · exact splitAtCheck?_eq_none_iff.1 hsplit
    · exact ih hrest
  | case3 number flag first rest before name after hsplit next ih =>
    obtain rfl | hrest := List.mem_cons.1 hpiece
    · intro instr hinstr
      obtain hbefore | htest := List.mem_append.1 hinstr
      · exact (of_splitAtCheck? hsplit).2 instr hbefore
      · rw [List.mem_singleton.1 htest]
        rfl
    · exact ih hrest

theorem expandFrom_of_checkCount_eq_zero (hzero : checkCount pending = 0) :
    expandFrom number flag pending = pending.map fun block => ⟨block, none⟩ := by
  fun_induction expandFrom number flag pending with
  | case1 => rfl
  | case2 number flag first rest hsplit ih =>
    rw [ih (checkCount_of_plain hsplit ▸ hzero), List.map_cons]
  | case3 number flag first rest before name after hsplit next ih =>
    rw [checkCount_of_split next hsplit] at hzero
    exact absurd hzero (Nat.succ_ne_zero _)

/-! ### Chains -/

theorem Chain.of_checkless (h : Chain blocks number code terminator links)
    (hcode : ∀ instr ∈ code, instr.isCheck = false) :
    links = [] ∧ blocks[number]? = some ⟨code, terminator⟩ := by
  cases h with
  | last _ hblock => exact ⟨rfl, hblock⟩
  | split =>
    have hcheck := hcode (.check _) (List.mem_append_right _ List.mem_cons_self)
    exact absurd hcheck nofun

theorem Chains.flag_lt {i : Nat} {link : Link} (h : Chains blocks number flag pending chains)
    (hi : i < pending.length) (hlink : link ∈ chains i) :
    link.flag < flag + checkCount pending := by
  have hmem : link ∈ (List.range pending.length).flatMap chains :=
    List.mem_flatMap.2 ⟨i, List.mem_range.2 hi, hlink⟩
  exact (List.mem_range'_1.1 (h.flags.subset (List.mem_map_of_mem hmem))).2

theorem Chains.plain (h : Chains blocks (number + 1) flag rest chains)
    (hsplit : splitAtCheck? first.code = none) (hfirst : blocks[number]? = some first) :
    Chains blocks number flag (first :: rest) (fun | 0 => [] | i + 1 => chains i) := by
  have hshift : (List.range (first :: rest).length).flatMap
      (fun | 0 => [] | i + 1 => chains i) = (List.range rest.length).flatMap chains := by
    rw [List.length_cons, List.range_succ_eq_map, List.flatMap_cons, List.flatMap_map]
    rfl
  refine ⟨fun i block hblock => ?_, ?_, ?_⟩
  · cases i with
    | zero =>
      obtain rfl := Option.some.inj hblock
      exact .last (splitAtCheck?_eq_none_iff.1 hsplit) hfirst
    | succ i =>
      have hchain := h.chain i block hblock
      rwa [Nat.add_right_comm] at hchain
  · rw [hshift, checkCount_of_plain hsplit, List.length_cons, Nat.add_comm rest.length,
      ← Nat.add_assoc]
    exact h.numbers
  · rw [hshift, checkCount_of_plain hsplit]
    exact h.flags

/-- A pending block with checks is split at the first of them: its chain is that of the rest of its
code with one more link, which takes the first two numbers and the first variable still free. -/
theorem Chains.split (hnext : next = number + 1 + rest.length)
    (h : Chains blocks (number + 1) (flag + 1)
      (rest ++ [⟨after, first.terminator⟩, initBlock name next]) chains)
    (hsplit : splitAtCheck? first.code = some (before, name, after))
    (hfirst : blocks[number]? = some (headBlock before name flag next)) :
    Chains blocks number flag (first :: rest)
      (fun | 0 => ⟨next, next + 1, flag⟩ :: chains rest.length | i + 1 => chains i) := by
  subst hnext
  obtain ⟨hcode, hbefore⟩ := of_splitAtCheck? hsplit
  have hfollowing := h.chain rest.length ⟨after, first.terminator⟩ (by simp)
  have hcalled := h.chain (rest.length + 1) (initBlock name (number + 1 + rest.length)) (by simp)
  obtain ⟨hnone, hcall⟩ := hcalled.of_checkless (by simp [initBlock, Instr.isCheck])
  have hlength : (rest ++ [⟨after, first.terminator⟩,
      initBlock name (number + 1 + rest.length)]).length = rest.length + 1 + 1 := by simp
  have hlinks : (List.range (first :: rest).length).flatMap
      (fun | 0 => ⟨number + 1 + rest.length, number + 1 + rest.length + 1, flag⟩ ::
            chains rest.length
           | i + 1 => chains i) =
      ⟨number + 1 + rest.length, number + 1 + rest.length + 1, flag⟩ ::
        (chains rest.length ++ (List.range rest.length).flatMap chains) := by
    rw [List.length_cons, List.range_succ_eq_map, List.flatMap_cons, List.flatMap_map]
    rfl
  -- the links of the pending blocks after the split are the other links, in another order
  have hothers : (chains rest.length ++ (List.range rest.length).flatMap chains).Perm
      ((List.range (rest.length + 1 + 1)).flatMap chains) := by
    rw [List.range_succ, List.range_succ, List.flatMap_append, List.flatMap_append,
      List.flatMap_singleton, List.flatMap_singleton, hnone, List.append_nil]
    exact List.perm_append_comm
  have hnumbers := h.numbers
  have hflags := h.flags
  rw [hlength] at hnumbers hflags
  refine ⟨fun i block hblock => ?_, ?_, ?_⟩
  · cases i with
    | zero =>
      obtain rfl := Option.some.inj hblock
      rw [hcode]
      exact .split hbefore hfirst hcall hfollowing
    | succ i =>
      have hlt : i < rest.length := Nat.lt_of_succ_lt_succ (List.getElem?_eq_some_iff.1 hblock).1
      have hchain := h.chain i block ((List.getElem?_append_left hlt).trans hblock)
      rwa [Nat.add_right_comm] at hchain
  · rw [hlinks, checkCount_of_split (number + 1 + rest.length) hsplit, List.flatMap_cons,
      List.length_cons, Nat.mul_succ, List.range'_succ, List.range'_succ,
      Nat.add_comm rest.length, ← Nat.add_assoc]
    exact (((hothers.flatMap_right _).trans hnumbers).cons _).cons _
  · rw [hlinks, checkCount_of_split (number + 1 + rest.length) hsplit, List.map_cons,
      List.range'_succ]
    exact ((hothers.map Link.flag).trans hflags).cons flag

theorem getElem?_finished {finished : List Block} (hnumber : finished.length = number)
    (block : Block) (later : List Block) :
    (finished ++ [block] ++ later)[number]? = some block := by
  subst hnumber
  simp

/-- The pending blocks are finished as chains under their numbers, behind the finished blocks. -/
theorem chains_expandFrom (number flag : Nat) (pending finished : List Block)
    (hnumber : finished.length = number) :
    ∃ chains, Chains (finished ++ (expandFrom number flag pending).map Piece.block) number flag
      pending chains := by
  fun_induction expandFrom number flag pending generalizing finished with
  | case1 number flag =>
    refine ⟨fun _ => [], fun i block hblock => ?_, .nil, .nil⟩
    exact absurd (List.mem_of_getElem? hblock) List.not_mem_nil
  | case2 number flag first rest hsplit ih =>
    obtain ⟨chains, hchains⟩ := ih (finished ++ [first]) (by simp [hnumber])
    rw [List.map_cons, List.append_cons]
    exact ⟨_, hchains.plain hsplit (getElem?_finished hnumber first _)⟩
  | case3 number flag first rest before name after hsplit next ih =>
    obtain ⟨chains, hchains⟩ := ih (finished ++ [headBlock before name flag next])
      (by simp [hnumber])
    rw [List.map_cons, List.append_cons]
    exact ⟨_, hchains.split rfl hsplit (getElem?_finished hnumber _ _)⟩

end Expansion

namespace Body

open Expansion

theorem exists_chains (body : Body) :
    ∃ chains, Chains body.expand.blocks 0 body.vars.length body.blocks chains := by
  have hchains := chains_expandFrom 0 body.vars.length body.blocks [] rfl
  rwa [List.nil_append] at hchains

theorem vars_expand (body : Body) :
    body.expand.vars = body.vars ++ List.replicate (checkCount body.blocks) flagInfo :=
  congrArg (body.vars ++ ·) (filterMap_split?_expandFrom flagInfo 0 body.vars.length body.blocks)

theorem checkCount_expand (body : Body) : checkCount body.expand.blocks = 0 := by
  refine checkCount_eq_zero_iff.2 fun block hblock => ?_
  obtain ⟨piece, hpiece, rfl⟩ := List.mem_map.1 hblock
  exact isCheck_of_mem_expandFrom hpiece

theorem expand_of_checkCount_eq_zero {body : Body} (hzero : checkCount body.blocks = 0) :
    body.expand = body := by
  have hvars : body.expand.vars = body.vars := by
    rw [vars_expand, hzero, List.replicate_zero, List.append_nil]
  have hblocks : body.expand.blocks = body.blocks := by
    change (expandFrom 0 body.vars.length body.blocks).map Piece.block = body.blocks
    rw [expandFrom_of_checkCount_eq_zero hzero, List.map_map]
    exact List.map_id _
  exact Body.mk.injEq .. ▸ ⟨hvars, hblocks⟩

/-- Expansion adds two blocks and one unnamed truth value for each check and leaves no check. Each
block is spelled out by a chain from its own number, whose links take each new number and each new
variable exactly once. Expanding once more changes nothing. -/
theorem expand_exact (body : Body) :
    body.expand.blocks.length = body.blocks.length + 2 * checkCount body.blocks ∧
      body.expand.vars =
        body.vars ++ List.replicate (checkCount body.blocks) ⟨some (.primitive .boolean), none⟩ ∧
      (∀ block ∈ body.expand.blocks, ∀ instr ∈ block.code, ∀ name, instr ≠ .check name) ∧
      (∃ chains : Nat → List Link,
        (∀ number block, body.blocks[number]? = some block →
          Chain body.expand.blocks number block.code block.terminator (chains number)) ∧
        (((List.range body.blocks.length).flatMap chains).flatMap Link.blocks).Perm
          (List.range' body.blocks.length (2 * checkCount body.blocks)) ∧
        (((List.range body.blocks.length).flatMap chains).map Link.flag).Perm
          (List.range' body.vars.length (checkCount body.blocks))) ∧
      body.expand.expand = body.expand := by
  refine ⟨?_, vars_expand body, ?_, ?_, expand_of_checkCount_eq_zero (checkCount_expand body)⟩
  · exact (List.length_map _).trans (length_expandFrom 0 body.vars.length body.blocks)
  · rintro block hblock instr hinstr name rfl
    exact absurd (checkCount_eq_zero_iff.1 (checkCount_expand body) block hblock _ hinstr) nofun
  · obtain ⟨chains, hchain, hnumbers, hflags⟩ := exists_chains body
    simp only [Nat.zero_add] at hchain hnumbers
    exact ⟨chains, hchain, hnumbers, hflags⟩

end Body

end MethodLowering
