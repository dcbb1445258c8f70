import MethodLowering.Proofs.Flow.NearestCommon

/-!
Sweeps over links. In one sweep every position but the root is linked anew, in increasing order, to
the lowest position at which the ways from its linked sources meet. Each position has a source in
front of it, hence ways only lose positions from sweep to sweep, and no link rises.
-/

set_option autoImplicit false
set_option relaxedAutoImplicit false

namespace MethodLowering

namespace Links

variable {size : Nat} {incoming : Nat → List Nat} {link new old : Links}
  {dominates : Nat → Nat → Prop} {a b c d i k p q r x : Nat}

/-- The sources of a position exist, and one of them stands in front of it. -/
structure Ordered (size : Nat) (incoming : Nat → List Nat) : Prop where
  bound : ∀ i < size, ∀ p ∈ incoming i, p < size
  forward : ∀ i < size, 0 < i → ∃ p ∈ incoming i, p < i

/-- The position is met from all linked ones of the given positions. -/
def Common (link : Links) (sources : List Nat) (x : Nat) : Prop :=
  ∀ p ∈ sources, (link p).isSome → Above link x p

/-- The position `c` is where the ways from the linked sources meet. -/
def Meets (link : Links) (sources : List Nat) (c : Nat) : Prop :=
  ∀ x, Above link x c ↔ Common link sources x

/-- One sweep leads from the links `old` to the links `new`: each position is linked by the new
links in front of it and the old ones from there on. -/
structure Sweeps (size : Nat) (incoming : Nat → List Nat) (old new : Links) : Prop where
  root : new 0 = some 0
  bound : ∀ i c, new i = some c → i < size
  update : ∀ i < size, 0 < i → ∃ c, new i = some c ∧ Meets (splice new old i) (incoming i) c

/-- Sources, each in front of the position it leads to, lead from `q` to `p`. -/
inductive Leads (incoming : Nat → List Nat) (q : Nat) : Nat → Prop
  | refl : Leads incoming q q
  | step {p s : Nat} : s ∈ incoming p → s < p → Leads incoming q s → Leads incoming q p

/-- What holds at the start and after every sweep: a link is met from every source in front, and
what is met from all linked sources is met behind the link. -/
structure Swept (size : Nat) (incoming : Nat → List Nat) (link : Links) : Prop where
  rooted : Rooted link size
  forward : ∀ i c, 0 < i → link i = some c → ∀ p ∈ incoming i, p < i → Above link c p
  common : ∀ i c, 0 < i → link i = some c → ∀ x, Common link (incoming i) x → Above link x c

theorem Leads.le (h : Leads incoming q p) : q ≤ p := by
  induction h with
  | refl => exact Nat.le_refl q
  | step _ hlt _ ih => omega

theorem Swept.leads (hswept : Swept size incoming link) (hordered : Ordered size incoming)
    (h : Above link q p) : Leads incoming q p := by
  induction p using Nat.strongRecOn with
  | ind p ih =>
    cases h with
    | refl => exact .refl
    | up hlink hlt hup =>
      have hpos : 0 < p := by omega
      obtain ⟨s, hs, hslt⟩ := hordered.forward p (hswept.rooted.bound p _ hlink) hpos
      exact .step hs hslt (ih s hslt (hup.trans (hswept.forward p _ hpos hlink s hs hslt)))

section Update

variable (hsweep : Sweeps size incoming old new)

include hsweep

theorem Sweeps.isSome (hi : i < size) : (new i).isSome := by
  rcases Nat.eq_zero_or_pos i with rfl | hpos
  · rw [hsweep.root]
    rfl
  · obtain ⟨c, hc, -⟩ := hsweep.update i hi hpos
    rw [hc]
    rfl

theorem Sweeps.meets (hi : 0 < i) (hlink : new i = some c) :
    Meets (splice new old i) (incoming i) c := by
  obtain ⟨found, hfound, hmeets⟩ := hsweep.update i (hsweep.bound i c hlink) hi
  rw [hlink, Option.some.injEq] at hfound
  exact hfound ▸ hmeets

theorem Sweeps.above_source (hi : 0 < i) (hlink : new i = some c) (hp : p ∈ incoming i)
    (hlt : p < i) : Above new c p := by
  have hlinked : (splice new old i p).isSome := by
    rw [splice_of_lt hlt]
    exact hsweep.isSome (Nat.lt_trans hlt (hsweep.bound i c hlink))
  exact (above_splice_iff hlt).1 ((hsweep.meets hi hlink c).1 .refl p hp hlinked)

variable (hordered : Ordered size incoming)

include hordered

theorem Sweeps.falls (hi : 0 < i) (hlink : new i = some c) : c < i := by
  obtain ⟨p, hp, hlt⟩ := hordered.forward i (hsweep.bound i c hlink) hi
  exact Nat.lt_of_le_of_lt (hsweep.above_source hi hlink hp hlt).le hlt

theorem Sweeps.rooted_splice (hold : Rooted old size) (hi : 0 < i) (hle : i ≤ size) :
    Rooted (splice new old i) size := by
  constructor
  · rw [splice_of_lt hi, hsweep.root]
  · intro k c hlink
    rcases Nat.lt_or_ge k i with hk | hk
    · omega
    · rw [splice_of_le hk] at hlink
      exact hold.bound k c hlink
  · intro k c hk hlink
    rcases Nat.lt_or_ge k i with hlt | hge
    · rw [splice_of_lt hlt] at hlink
      exact hsweep.falls hordered hk hlink
    · rw [splice_of_le hge] at hlink
      exact hold.falls k c hk hlink
  · intro k c hlink
    rcases Nat.lt_or_ge c i with hc | hc
    · rw [splice_of_lt hc]
      exact hsweep.isSome (by omega)
    · have hk : i ≤ k := by
        rcases Nat.lt_or_ge k i with hk | hk
        · rw [splice_of_lt hk] at hlink
          rcases Nat.eq_zero_or_pos k with rfl | hpos
          · rw [hsweep.root, Option.some.injEq] at hlink
            omega
          · have := hsweep.falls hordered hpos hlink
            omega
        · exact hk
      rw [splice_of_le hk] at hlink
      rw [splice_of_le hc]
      exact hold.linked k c hlink

theorem Sweeps.rooted (hsize : 0 < size) (hold : Rooted old size) : Rooted new size := by
  have hwhole : splice new old size = new := by
    funext k
    rcases Nat.lt_or_ge k size with hk | hk
    · exact splice_of_lt hk
    · rw [splice_of_le hk]
      cases hfound : old k with
      | none =>
        cases hother : new k with
        | none => rfl
        | some c => exact absurd (hsweep.bound k c hother) (Nat.not_lt.2 hk)
      | some c => exact absurd (hold.bound k c hfound) (Nat.not_lt.2 hk)
  exact hwhole ▸ hsweep.rooted_splice hordered hold hsize (Nat.le_refl size)

omit hordered in
theorem Sweeps.isSome_splice (hold : Rooted old size) (hp : (old p).isSome) :
    (splice new old i p).isSome := by
  rcases Nat.lt_or_ge p i with hlt | hge
  · obtain ⟨c, hc⟩ := Option.isSome_iff_exists.1 hp
    rw [splice_of_lt hlt]
    exact hsweep.isSome (hold.bound p c hc)
  · rw [splice_of_le hge]
    exact hp

omit hsweep hordered in
private theorem above_old_of_splice (hold : Rooted old size)
    (hbelow : ∀ k < i, (old k).isSome → ∀ x, Above new x k → Above old x k)
    (hp : (old p).isSome) (h : Above (splice new old i) x p) : Above old x p := by
  induction h with
  | refl => exact .refl
  | @up p c hlink hlt hup ih =>
    rcases Nat.lt_or_ge p i with hpi | hpi
    · exact hbelow p hpi hp x ((above_splice_iff hpi).1 (.up hlink hlt hup))
    · rw [splice_of_le hpi] at hlink
      exact .up hlink hlt (ih (hold.linked p c hlink))

omit hordered in
theorem Sweeps.above_old (hold : Swept size incoming old)
    (hi : (old i).isSome) (h : Above new x i) : Above old x i := by
  induction i using Nat.strongRecOn generalizing x with
  | ind i ih =>
    cases h with
    | refl => exact .refl
    | @up _ c hnew hlt hup =>
      obtain ⟨c', hlink⟩ := Option.isSome_iff_exists.1 hi
      have hpos : 0 < i := by omega
      have hcommon : Common old (incoming i) x := by
        intro p hp hlinked
        have hmixed : Above (splice new old i) x p :=
          (hsweep.meets hpos hnew x).1 ((above_splice_iff hlt).2 hup) p hp
            (hsweep.isSome_splice hold.rooted hlinked)
        exact above_old_of_splice hold.rooted (fun k hk hlinked x hx => ih k hk hlinked hx)
          hlinked hmixed
      exact .up hlink (hold.rooted.falls i c' hpos hlink) (hold.common i c' hpos hlink x hcommon)

theorem Sweeps.link_le (hold : Swept size incoming old) (holdlink : old i = some c)
    (hnewlink : new i = some d) : d ≤ c := by
  rcases Nat.eq_zero_or_pos i with rfl | hpos
  · rw [hsweep.root, Option.some.injEq] at hnewlink
    omega
  · have hlt : d < i := hsweep.falls hordered hpos hnewlink
    have habove : Above old d i :=
      hsweep.above_old hold (holdlink ▸ rfl) (.up hnewlink hlt .refl)
    exact (habove.of_ne (by omega) holdlink).le

omit hordered in
/-- On a way over sources in front of their positions, what is met from the end is met from every
position that is not below it. -/
theorem Sweeps.above_of_leads (hlead : Leads incoming q p)
    (hle : r ≤ q) (h : Above new r p) : Above new r q := by
  induction hlead with
  | refl => exact h
  | @step p s hs hlt hlead ih =>
    have hqs : q ≤ s := hlead.le
    cases h with
    | refl => omega
    | up hlink _ hup => exact ih (hup.trans (hsweep.above_source (by omega) hlink hs hlt))

theorem Sweeps.above_splice (hold : Swept size incoming old) (hi : 0 < i) (hle : i ≤ size)
    (hx : x < i) (hp : (splice new old i p).isSome) (h : Above new x p) :
    Above (splice new old i) x p := by
  induction p using Nat.strongRecOn with
  | ind p ih =>
    rcases Nat.lt_or_ge p i with hpi | hpi
    · exact (above_splice_iff hpi).2 h
    · rw [splice_of_le hpi] at hp
      obtain ⟨c, hlink⟩ := Option.isSome_iff_exists.1 hp
      have hc : c < p := hold.rooted.falls p c (by omega) hlink
      have hxc : Above old x c :=
        (hsweep.above_old hold hp h).of_ne (by omega) hlink
      have hlead : Leads incoming c p := hold.leads hordered (hold.rooted.above hlink)
      have hmixed : splice new old i p = some c := (splice_of_le hpi).trans hlink
      have hlinked : (splice new old i c).isSome :=
        (hsweep.rooted_splice hordered hold.rooted hi hle).linked p c hmixed
      exact .up hmixed hc (ih c hc hlinked (hsweep.above_of_leads hlead hxc.le h))

theorem Sweeps.common (hold : Swept size incoming old) (hi : 0 < i) (hlink : new i = some c)
    (h : Common new (incoming i) x) : Above new x c := by
  have hsize : i < size := hsweep.bound i c hlink
  have hx : x < i := by
    obtain ⟨p, hp, hlt⟩ := hordered.forward i hsize hi
    exact Nat.lt_of_le_of_lt (h p hp (hsweep.isSome (by omega))).le hlt
  refine (above_splice_iff (hsweep.falls hordered hi hlink)).1 ((hsweep.meets hi hlink x).2 ?_)
  intro p hp hlinked
  have hnew : Above new x p := h p hp (hsweep.isSome (hordered.bound i hsize p hp))
  exact hsweep.above_splice hordered hold hi (Nat.le_of_lt hsize) hx hlinked hnew

theorem Sweeps.swept (hsize : 0 < size) (hold : Swept size incoming old) :
    Swept size incoming new where
  rooted := hsweep.rooted hordered hsize hold.rooted
  forward _ _ hi hlink _ hp hlt := hsweep.above_source hi hlink hp hlt
  common _ _ hi hlink _ h := hsweep.common hordered hold hi hlink h

end Update

/-- Dominance between positions: a dominator does not lie behind, and it dominates the sources of
every other position it dominates. -/
structure Dominance (size : Nat) (incoming : Nat → List Nat) (dominates : Nat → Nat → Prop) :
    Prop where
  le : ∀ i < size, ∀ d, dominates d i → d ≤ i
  source : ∀ d i p, dominates d i → d ≠ i → p ∈ incoming i → dominates d p

/-- No link leads past a dominator. -/
def Respects (link : Links) (dominates : Nat → Nat → Prop) : Prop :=
  ∀ i c d, 0 < i → link i = some c → dominates d i → d ≠ i → dominates d c

theorem Respects.above (hrespects : Respects link dominates)
    (hdominance : Dominance size incoming dominates) (hrooted : Rooted link size)
    (hi : (link i).isSome) (hd : dominates d i) : Above link d i := by
  induction i using Nat.strongRecOn with
  | ind i ih =>
    obtain ⟨c, hlink⟩ := Option.isSome_iff_exists.1 hi
    have hle : d ≤ i := hdominance.le i (hrooted.bound i c hlink) d hd
    by_cases hne : d = i
    · exact hne ▸ .refl
    · have hpos : 0 < i := by omega
      have hlt : c < i := hrooted.falls i c hpos hlink
      exact .up hlink hlt
        (ih c hlt (hrooted.linked i c hlink) (hrespects i c d hpos hlink hd hne))

/-- A dominator that is not passed on the way still dominates where the way has led. -/
theorem Respects.dominates_of_above (hrespects : Respects link dominates)
    (hup : Above link c p) (hle : d ≤ c) (hd : dominates d p) : dominates d c := by
  induction hup with
  | refl => exact hd
  | @up p s hlink hlt hup ih =>
    have hcs : c ≤ s := hup.le
    exact ih (hrespects p s d (by omega) hlink hd (by omega))

theorem Sweeps.respects (hsweep : Sweeps size incoming old new)
    (hordered : Ordered size incoming) (hdominance : Dominance size incoming dominates)
    (hrooted : Rooted old size) (hold : Respects old dominates) : Respects new dominates := by
  intro i
  induction i using Nat.strongRecOn with
  | ind i ih =>
    intro c d hi hlink hd hne
    have hsize : i < size := hsweep.bound i c hlink
    have hmixed : Respects (splice new old i) dominates := by
      intro k s e hk hs he hek
      rcases Nat.lt_or_ge k i with hlt | hge
      · exact ih k hlt s e hk ((splice_of_lt hlt).symm.trans hs) he hek
      · exact hold k s e hk ((splice_of_le hge).symm.trans hs) he hek
    have hroot : Rooted (splice new old i) size :=
      hsweep.rooted_splice hordered hrooted hi (Nat.le_of_lt hsize)
    have hmeets : Meets (splice new old i) (incoming i) c := hsweep.meets hi hlink
    have habove : Above (splice new old i) d c := by
      refine (hmeets d).2 fun p hp hlinked => ?_
      exact hmixed.above hdominance hroot hlinked (hdominance.source d i p hd hne hp)
    obtain ⟨p, hp, hlt⟩ := hordered.forward i hsize hi
    have hlinked : (splice new old i p).isSome := by
      rw [splice_of_lt hlt]
      exact hsweep.isSome (Nat.lt_trans hlt hsize)
    exact hmixed.dominates_of_above ((hmeets c).1 .refl p hp hlinked) habove.le
      (hdominance.source d i p hd hne hp)

theorem Sweeps.above_source_of_fixed (hsweep : Sweeps size incoming link link)
    (hordered : Ordered size incoming) (h : Above link a i) (hne : a ≠ i)
    (hp : p ∈ incoming i) : Above link a p := by
  cases h with
  | refl => exact absurd rfl hne
  | up hlink hlt hup =>
    have hsize : i < size := hsweep.bound i _ hlink
    have hmeets : Meets link (incoming i) _ :=
      splice_self link i ▸ hsweep.meets (by omega) hlink
    exact (hmeets a).1 hup p hp (hsweep.isSome (hordered.bound i hsize p hp))

end Links

end MethodLowering
