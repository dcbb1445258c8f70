import MethodLowering.Backend
import MethodLowering.Proofs.Check.Normalization
import MethodLowering.Proofs.Check.Splitting
import MethodLowering.Proofs.Listing.Locals

/-!
What normalization keeps. When every target of a body names a block, so does every target of the
body with its entry check, of the reduced body and of the expanded one; and such a body can be
listed. If the blocks that the entry reaches name only declared variables, so do those of these
bodies: what is reached there continues a block reached before, and what it names besides are the
variables of its tests.
-/

set_option autoImplicit false
set_option relaxedAutoImplicit false

namespace MethodLowering

/-! ### Closed bodies -/

namespace Expansion

variable {number flag target : Nat} {pending : List Block} {piece : Piece}

theorem length_le_expandFrom (number flag : Nat) (pending : List Block) :
    pending.length ≤ (expandFrom number flag pending).length :=
  length_expandFrom number flag pending ▸ Nat.le_add_right _ _

/-- A target of a finished block is one of a pending block, or names a block that is finished in the
end. -/
theorem target_of_mem_expandFrom (hpiece : piece ∈ expandFrom number flag pending)
    (htarget : target ∈ piece.block.terminator.targets) :
    target < number + (expandFrom number flag pending).length ∨
      ∃ block ∈ pending, target ∈ block.terminator.targets := by
  fun_induction expandFrom number flag pending with
  | case1 => exact absurd hpiece List.not_mem_nil
  | case2 number flag block rest hsplit ih =>
    obtain rfl | hrest := List.mem_cons.1 hpiece
    · exact .inr ⟨block, List.mem_cons_self, htarget⟩
    · obtain hlt | ⟨later, hlater, hmem⟩ := ih hrest
      · left
        simp only [List.length_cons]
        omega
      · exact .inr ⟨later, List.mem_cons_of_mem block hlater, hmem⟩
  | case3 number flag block rest before name after hsplit next ih =>
    -- both appended blocks are finished in the end, under the numbers `next` and `next + 1`
    have hlong := length_le_expandFrom (number + 1) (flag + 1)
      (rest ++ [⟨after, block.terminator⟩, initBlock name next])
    simp only [List.length_append, List.length_cons, List.length_nil] at hlong
    obtain rfl | hrest := List.mem_cons.1 hpiece
    · left
      have hhead : target = next ∨ target = next + 1 := by
        simpa [headBlock, Terminator.targets] using htarget
      simp only [List.length_cons]
      omega
    · obtain hlt | ⟨later, hlater, hmem⟩ := ih hrest
      · left
        simp only [List.length_cons]
        omega
      · simp only [List.mem_append, List.mem_cons, List.not_mem_nil, or_false] at hlater
        obtain hold | rfl | rfl := hlater
        · exact .inr ⟨later, List.mem_cons_of_mem block hold, hmem⟩
        · exact .inr ⟨block, List.mem_cons_self, hmem⟩
        · left
          have hnext : target = next := by
            simpa [initBlock, Terminator.targets] using hmem
          simp only [List.length_cons]
          omega

end Expansion

namespace Body

variable {body reduced : Body} {hasInitializer : String → Bool}

theorem closed_iff : body.graph.Closed ↔
    ∀ block ∈ body.blocks, ∀ target ∈ block.terminator.targets, target < body.blocks.length := by
  simp [Graph.Closed, graph, Graph.size]

theorem closed_expand (h : body.graph.Closed) : body.expand.graph.Closed := by
  rw [closed_iff] at h ⊢
  intro block hblock target htarget
  obtain ⟨piece, hpiece, rfl⟩ := List.mem_map.1 hblock
  have hlength : body.expand.blocks.length = (Expansion.pieces body).length := List.length_map _
  rw [hlength]
  obtain hlt | ⟨old, hold, hmem⟩ := Expansion.target_of_mem_expandFrom hpiece htarget
  · rwa [Nat.zero_add] at hlt
  · exact Nat.lt_of_lt_of_le (h old hold target hmem) (Expansion.length_le_expandFrom _ _ _)

theorem closed_inject (h : body.graph.Closed) (hasInitializer : String → Bool) (method : Method) :
    (EntryCheck.inject hasInitializer method body).graph.Closed := by
  rw [(EntryCheck.inject_frame hasInitializer method body).2]
  exact h

theorem Eliminated.closed (helim : body.Eliminated hasInitializer reduced)
    (h : body.graph.Closed) : reduced.graph.Closed := by
  rw [helim.graph_eq]
  exact h

/-- The statements of the block of a number, none if there is no such block. -/
def statementsAt (body : Body) (number : Nat) : List Statement :=
  (body.blocks[number]?).elim [] Block.statements

theorem exists_listing_eq (h : body.graph.Closed) :
    ∃ order, body.graph.reversePostorder? = some order ∧ body.graph.ReversePostorder order ∧
      body.listing? = some (order.flatMap body.statementsAt) := by
  obtain ⟨order, horder, hspec⟩ := Graph.reversePostorder?_of_closedFromEntry h.fromEntry
  have hblocks : ∀ number ∈ order,
      body.blocks[number]? = some (body.blocks.getD number ⟨[], .exit none⟩) := by
    intro number hnumber
    have hlt : number < body.blocks.length := body.size_graph ▸ hspec.lt_size number hnumber
    simp [hlt]
  refine ⟨order, horder, hspec, ?_⟩
  rw [listing?, horder, Option.bind_some, mapM_eq_some_of_forall hblocks, Option.map_some,
    List.flatMap_map]
  refine congrArg some (List.flatMap_congr fun number hnumber => ?_)
  rw [statementsAt, hblocks number hnumber, Option.elim_some]

theorem exists_listing (h : body.graph.Closed) : ∃ listing, body.listing? = some listing := by
  obtain ⟨order, -, -, hlisting⟩ := exists_listing_eq h
  exact ⟨_, hlisting⟩

theorem of_mem_listing {listing : List Statement} {statement : Statement}
    (h : body.graph.Closed) (hlisting : body.listing? = some listing)
    (hstatement : statement ∈ listing) : ∃ number block, body.graph.Reaches 0 number ∧
      body.blocks[number]? = some block ∧ statement ∈ block.statements := by
  obtain ⟨order, -, hspec, heq⟩ := exists_listing_eq h
  obtain rfl := Option.some.inj (hlisting.symm.trans heq)
  obtain ⟨number, hnumber, hmem⟩ := List.mem_flatMap.1 hstatement
  obtain ⟨hsize, hreaches⟩ := (hspec.mem_iff number).1 hnumber
  have hlt : number < body.blocks.length := body.size_graph ▸ hsize
  have hblock : body.blocks[number]? = some body.blocks[number] := List.getElem?_eq_getElem hlt
  rw [statementsAt, hblock] at hmem
  exact ⟨number, _, hreaches, hblock, hmem⟩

end Body

/-! ### Declared variables -/

theorem Terminator.mem_targets_branch_iff {condition consequent alternative target : Nat} :
    target ∈ (branch condition consequent alternative).targets ↔
      target = consequent ∨ target = alternative := by
  by_cases h : consequent = alternative <;> simp [targets, h]

theorem Block.mem_statements_iff {block : Block} {statement : Statement} :
    statement ∈ block.statements ↔ (∃ instr ∈ block.code, .perform instr = statement) ∨
      ∃ value, block.terminator = .exit value ∧ .leave value = statement := by
  unfold Block.statements
  rw [List.mem_append, List.mem_map]
  refine or_congr_right ?_
  cases block.terminator with
  | exit value => simp [eq_comm]
  | _ => simp

namespace Body

open Expansion

variable {body result reduced : Body} {hasInitializer : String → Bool} {number target : Nat}
  {block : Block}

/-- The instructions and exits of the blocks that the entry reaches name only declared variables. -/
def Declares (body : Body) : Prop :=
  ∀ number block, body.graph.Reaches 0 number → body.blocks[number]? = some block →
    ∀ statement ∈ block.statements, ∀ v ∈ statement.vars, v < body.vars.length

theorem edge_iff : body.graph.Edge number target ↔
    ∃ block, body.blocks[number]? = some block ∧ target ∈ block.terminator.targets := by
  unfold Graph.Edge
  rw [successors?_graph]
  simp

theorem Declares.of_blocks (h : body.Declares) (hvars : result.vars = body.vars)
    (hgraph : result.graph = body.graph)
    (hblocks : ∀ (number : Nat) (block : Block), result.blocks[number]? = some block →
      ∃ b, body.blocks[number]? = some b ∧ block.terminator = b.terminator ∧
        ∀ instr ∈ block.code, instr ∈ b.code ∨ instr.vars = []) : result.Declares := by
  intro number block hreaches hblock statement hstatement v hv
  obtain ⟨b, hb, hterm, hcode⟩ := hblocks number block hblock
  have hold := h number b (hgraph ▸ hreaches) hb
  rw [hvars]
  obtain ⟨instr, hinstr, rfl⟩ | ⟨value, hvalue, rfl⟩ := Block.mem_statements_iff.1 hstatement
  · obtain hkept | hnone := hcode instr hinstr
    · exact hold _ (Block.mem_statements_iff.2 (.inl ⟨instr, hkept, rfl⟩)) v hv
    · have hnamed : v ∈ instr.vars := hv
      rw [hnone] at hnamed
      exact absurd hnamed List.not_mem_nil
  · exact hold _ (Block.mem_statements_iff.2 (.inr ⟨value, hterm ▸ hvalue, rfl⟩)) v hv

theorem declares_inject (h : body.Declares) (hasInitializer : String → Bool) (method : Method) :
    (EntryCheck.inject hasInitializer method body).Declares := by
  obtain ⟨hvars, hgraph⟩ := EntryCheck.inject_frame hasInitializer method body
  refine h.of_blocks hvars hgraph fun number block hblock => ?_
  unfold EntryCheck.inject at hblock
  split at hblock
  · unfold modifyEntry at hblock
    cases hblocks : body.blocks with
    | nil => simp [hblocks] at hblock
    | cons entry rest =>
      rw [hblocks, List.modifyHead_cons] at hblock
      cases number with
      | zero =>
        obtain rfl := Option.some.inj hblock
        refine ⟨entry, rfl, rfl, fun instr hinstr => ?_⟩
        obtain rfl | hold := List.mem_cons.1 hinstr
        · exact .inr rfl
        · exact .inl hold
      | succ number => exact ⟨block, hblock, rfl, fun instr hinstr => .inl hinstr⟩
  · exact ⟨block, hblock, rfl, fun instr hinstr => .inl hinstr⟩

theorem Eliminated.declares (helim : body.Eliminated hasInitializer reduced) (h : body.Declares) :
    reduced.Declares := by
  refine h.of_blocks helim.vars helim.graph_eq fun number block hblock => ?_
  obtain ⟨b, hb, hterm, hcode, -⟩ := helim.of_getElem? hblock
  exact ⟨b, hb, hterm, fun instr hinstr => .inl (hcode instr hinstr)⟩

/-! ### What an expansion reaches -/

/-- The number stands on the chain of a block that the entry reaches, where part of the code of this
block is still to come. -/
def Continues (body : Body) (number : Nat) : Prop :=
  ∃ source block code links, body.graph.Reaches 0 source ∧ body.blocks[source]? = some block ∧
    code <:+ block.code ∧ Chain body.expand.blocks number code block.terminator links ∧
    ∀ link ∈ links, link.flag < body.expand.vars.length

/-- The number is that of a block that runs an initializer and leads back to a chain. -/
def Initializes (body : Body) (number : Nat) : Prop :=
  ∃ name next, body.expand.blocks[number]? = some (initBlock name next) ∧ body.Continues next

theorem continues_of_reaches (hreaches : body.graph.Reaches 0 number)
    (hnumber : number < body.blocks.length) : body.Continues number := by
  obtain ⟨chains, hchains⟩ := exists_chains body
  have hblock := List.getElem?_eq_getElem hnumber
  have hchain := hchains.chain number _ hblock
  rw [Nat.zero_add] at hchain
  refine ⟨number, _, _, chains number, hreaches, hblock, List.suffix_rfl, hchain, ?_⟩
  intro link hlink
  rw [vars_expand, List.length_append, List.length_replicate]
  exact hchains.flag_lt hnumber hlink

theorem Continues.step (h : body.Continues number) (hclosed : body.graph.Closed)
    (hedge : body.expand.graph.Edge number target) :
    body.Continues target ∨ body.Initializes target := by
  obtain ⟨source, block, code, links, hreaches, hblock, hsuffix, hchain, hflags⟩ := h
  obtain ⟨found, hfound, htarget⟩ := edge_iff.1 hedge
  cases hchain with
  | last _ hlast =>
    -- at the end of its chain a block goes where it went before
    obtain rfl := Option.some.inj (hfound.symm.trans hlast)
    have hold : body.graph.Edge source target := edge_iff.2 ⟨block, hblock, htarget⟩
    have hlt : target < body.blocks.length := body.size_graph ▸ hclosed.target_lt_size hold
    exact .inl (continues_of_reaches (hreaches.step hold) hlt)
  | @split _ before after name _ link links _ hhead hinit hrest =>
    obtain rfl := Option.some.inj (hfound.symm.trans hhead)
    have hnext : body.Continues link.next :=
      ⟨source, block, after, links, hreaches, hblock,
        ((List.suffix_cons _ after).trans (List.suffix_append before _)).trans hsuffix, hrest,
        fun later hlater => hflags later (List.mem_cons_of_mem link hlater)⟩
    obtain rfl | rfl := Terminator.mem_targets_branch_iff.1 htarget
    · exact .inl hnext
    · exact .inr ⟨name, link.next, hinit, hnext⟩

theorem Initializes.step (h : body.Initializes number)
    (hedge : body.expand.graph.Edge number target) : body.Continues target := by
  obtain ⟨name, next, hblock, hnext⟩ := h
  obtain ⟨found, hfound, htarget⟩ := edge_iff.1 hedge
  obtain rfl := Option.some.inj (hfound.symm.trans hblock)
  exact List.mem_singleton.1 htarget ▸ hnext

/-- All that the entry of an expansion reaches stands on the chain of a block reached before, or
runs an initializer on such a chain. -/
theorem continues_or_initializes (hclosed : body.graph.Closed) (hentry : 0 < body.blocks.length)
    (h : body.expand.graph.Reaches 0 number) :
    body.Continues number ∨ body.Initializes number := by
  refine h.induct (motive := fun number => body.Continues number ∨ body.Initializes number)
    (.inl (continues_of_reaches (.refl body.graph 0) hentry)) fun a c _ ha hedge => ?_
  obtain hcontinues | hinitializes := ha
  · exact hcontinues.step hclosed hedge
  · exact .inl (hinitializes.step hedge)

theorem Continues.declared (h : body.Continues number) (hdeclares : body.Declares)
    (hblock : body.expand.blocks[number]? = some block) :
    ∀ statement ∈ block.statements, ∀ v ∈ statement.vars, v < body.expand.vars.length := by
  obtain ⟨source, b, code, links, hreaches, hb, hsuffix, hchain, hflags⟩ := h
  have hmore : body.vars.length ≤ body.expand.vars.length := by
    rw [vars_expand, List.length_append]
    exact Nat.le_add_right _ _
  have hperformed : ∀ instr ∈ code, ∀ v ∈ instr.vars, v < body.expand.vars.length := by
    intro instr hinstr v hv
    have hstatement := Block.mem_statements_iff.2 (.inl ⟨instr, hsuffix.subset hinstr, rfl⟩)
    exact Nat.lt_of_lt_of_le (hdeclares source b hreaches hb _ hstatement v hv) hmore
  intro statement hstatement v hv
  cases hchain with
  | last _ hlast =>
    obtain rfl := Option.some.inj (hblock.symm.trans hlast)
    obtain ⟨instr, hinstr, rfl⟩ | ⟨value, hvalue, rfl⟩ := Block.mem_statements_iff.1 hstatement
    · exact hperformed instr hinstr v hv
    · have hleft : .leave value ∈ b.statements :=
        Block.mem_statements_iff.2 (.inr ⟨value, hvalue, rfl⟩)
      exact Nat.lt_of_lt_of_le (hdeclares source b hreaches hb _ hleft v hv) hmore
  | @split _ before after name _ link links _ hhead =>
    obtain rfl := Option.some.inj (hblock.symm.trans hhead)
    obtain ⟨instr, hinstr, rfl⟩ | ⟨value, hvalue, rfl⟩ := Block.mem_statements_iff.1 hstatement
    · obtain hbefore | htest := List.mem_append.1 hinstr
      · exact hperformed instr (List.mem_append_left _ hbefore) v hv
      · rw [List.mem_singleton.1 htest] at hv
        exact List.mem_singleton.1 hv ▸ hflags link List.mem_cons_self
    · exact absurd hvalue nofun

theorem declares_expand (h : body.Declares) (hclosed : body.graph.Closed) :
    body.expand.Declares := by
  by_cases hentry : 0 < body.blocks.length
  · intro number block hreaches hblock
    obtain hcontinues | ⟨name, next, hinit, -⟩ := continues_or_initializes hclosed hentry hreaches
    · exact hcontinues.declared h hblock
    · obtain rfl := Option.some.inj (hblock.symm.trans hinit)
      intro statement hstatement v hv
      obtain rfl := List.mem_singleton.1 hstatement
      exact absurd hv List.not_mem_nil
  · have hempty : body.blocks = [] := List.eq_nil_of_length_eq_zero (Nat.eq_zero_of_not_pos hentry)
    rwa [expand_of_checkCount_eq_zero (by rw [hempty]; rfl)]

end Body

end MethodLowering
