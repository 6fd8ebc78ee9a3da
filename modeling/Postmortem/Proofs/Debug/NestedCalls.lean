import Mathlib.Data.List.Pairwise
import Postmortem.Proofs.Debug.BuilderRuns
import Postmortem.Proofs.Distances

/-!
# Nested calls

Calls of which each lies inside one of the next lower depth, and beside all others of its own depth.
At each address at most one call of each depth is found, and those that are found form a chain.
-/

set_option autoImplicit false

namespace Postmortem.Debug

/-! ## Open calls -/

/-- Whether a chain of calls, innermost first, is what is open at an address when some calls have
been opened. -/
structure ChainAt (opened : List InlineCall) (now : UInt64) (chain : List InlineCall) : Prop where
  stops : chain.Pairwise fun c p => c.stop ≤ p.stop
  mem : ∀ c ∈ chain, c ∈ opened
  live : ∀ c ∈ opened, now < c.stop → c ∈ chain
  began : ∀ c ∈ opened, c.address ≤ now

theorem mem_dropWhile_stop_iff {chain : List InlineCall} {c : InlineCall} {a : UInt64}
    (h : chain.Pairwise fun c p => c.stop ≤ p.stop) :
    c ∈ chain.dropWhile (·.stop ≤ a) ↔ c ∈ chain ∧ a < c.stop := by
  induction chain with
  | nil => simp
  | cons d rest ih =>
      obtain ⟨hstops, hrest⟩ := List.pairwise_cons.1 h
      rw [List.dropWhile_cons]
      split
      · rename_i hended
        rw [decide_eq_true_eq] at hended
        rw [ih hrest, List.mem_cons]
        refine ⟨fun h => ⟨.inr h.1, h.2⟩, fun h => ⟨h.1.resolve_left ?_, h.2⟩⟩
        rintro rfl
        exact UInt64.not_lt.2 hended h.2
      · rename_i hlive
        rw [decide_eq_true_eq, UInt64.not_le] at hlive
        refine ⟨fun hc => ⟨hc, ?_⟩, And.left⟩
        rcases List.mem_cons.1 hc with rfl | hc
        · exact hlive
        · exact UInt64.lt_of_lt_of_le hlive (hstops c hc)

namespace ChainAt

variable {opened chain : List InlineCall} {c : InlineCall} {now a : UInt64}

theorem empty : ChainAt [] 0 [] := ⟨.nil, nofun, nofun, nofun⟩

theorem mem_ended_iff (h : ChainAt opened now chain) (hle : now ≤ a) :
    c ∈ chain.dropWhile (·.stop ≤ a) ↔ c ∈ opened ∧ c.Covers a := by
  rw [mem_dropWhile_stop_iff h.stops]
  constructor
  · rintro ⟨hc, hlt⟩
    exact ⟨h.mem c hc, UInt64.le_trans (h.began c (h.mem c hc)) hle, hlt⟩
  · rintro ⟨hc, -, hlt⟩
    exact ⟨h.live c hc (UInt64.lt_of_le_of_lt hle hlt), hlt⟩

theorem ended (h : ChainAt opened now chain) (hle : now ≤ a) :
    ChainAt opened a (chain.dropWhile (·.stop ≤ a)) where
  stops := h.stops.sublist (List.dropWhile_sublist _)
  mem _ hc := ((h.mem_ended_iff hle).1 hc).1
  live c hc hlt := (h.mem_ended_iff hle).2 ⟨hc, UInt64.le_trans (h.began c hc) hle, hlt⟩
  began _ hc := UInt64.le_trans (h.began _ hc) hle

theorem cons (h : ChainAt opened c.address chain) (hstops : ∀ p ∈ chain, c.stop ≤ p.stop) :
    ChainAt (opened ++ [c]) c.address (c :: chain) where
  stops := List.pairwise_cons.2 ⟨hstops, h.stops⟩
  mem := by
    refine List.forall_mem_cons.2 ⟨List.mem_append_right _ List.mem_cons_self, fun d hd => ?_⟩
    exact List.mem_append_left _ (h.mem d hd)
  live d hd hlt := by
    rcases List.mem_append.1 hd with hd | hd
    · exact List.mem_cons_of_mem _ (h.live d hd hlt)
    · exact List.mem_singleton.1 hd ▸ List.mem_cons_self
  began d hd := by
    rcases List.mem_append.1 hd with hd | hd
    · exact h.began d hd
    · exact UInt64.le_of_eq (congrArg _ (List.mem_singleton.1 hd))

end ChainAt

/-! ## Calls inside each other -/

namespace InlineCall

def Encloses (p c : InlineCall) : Prop := p.Covers c.address ∧ c.stop ≤ p.stop

instance (p c : InlineCall) : Decidable (p.Encloses c) := inferInstanceAs (Decidable (_ ∧ _))

def Apart (c d : InlineCall) : Prop := c.stop ≤ d.address ∨ d.stop ≤ c.address

instance (c d : InlineCall) : Decidable (c.Apart d) := inferInstanceAs (Decidable (_ ∨ _))

theorem lt_stop {c : InlineCall} {a : UInt64} (hsize : c.size ≠ 0) (h : c.address < a) :
    c.address < c.stop :=
  (lt_addSaturating_iff h).2 hsize

end InlineCall

/-- Whether calls have sizes, those of one depth have no code in common, and each one below depth 0
lies inside one of the next lower depth. -/
structure ProperlyNested (calls : List InlineCall) : Prop where
  sized : ∀ c ∈ calls, c.size ≠ 0
  apart : calls.Pairwise fun c d => c.depth = d.depth → c.Apart d
  enclosed : ∀ c ∈ calls, c.depth ≠ 0 →
    ∃ p ∈ calls, p.depth.toNat + 1 = c.depth.toNat ∧ p.Encloses c

def callAt (calls : List InlineCall) (depth : Nat) (a : UInt64) : Option InlineCall :=
  calls.find? fun c => c.depth.toNat = depth ∧ c.Covers a

namespace ProperlyNested

variable {calls calls' : List InlineCall} {c d : InlineCall} {a : UInt64} {n : Nat}

theorem perm (h : ProperlyNested calls) (hperm : calls.Perm calls') : ProperlyNested calls' where
  sized c hc := h.sized c (hperm.mem_iff.2 hc)
  apart := by
    refine (hperm.pairwise_iff ?_).1 h.apart
    exact fun h heq => (h heq.symm).symm
  enclosed c hc hdepth := by
    obtain ⟨p, hp, henclosed⟩ := h.enclosed c (hperm.mem_iff.2 hc) hdepth
    exact ⟨p, hperm.mem_iff.1 hp, henclosed⟩

/-- Two calls of one depth at one address are the same. -/
theorem eq_of_covers (h : ProperlyNested calls) (hc : c ∈ calls) (hd : d ∈ calls)
    (hdepth : c.depth = d.depth) (hca : c.Covers a) (hda : d.Covers a) : c = d := by
  have : Std.Symm fun c d : InlineCall => c.depth = d.depth → c.Apart d :=
    ⟨fun _ _ h heq => (h heq.symm).symm⟩
  by_contra hne
  rcases h.apart.forall hc hd hne hdepth with hle | hle
  · exact UInt64.not_lt.2 (UInt64.le_trans hle hda.1) hca.2
  · exact UInt64.not_lt.2 (UInt64.le_trans hle hca.1) hda.2

theorem callAt_eq_some (h : ProperlyNested calls) :
    callAt calls n a = some c ↔ c ∈ calls ∧ c.depth.toNat = n ∧ c.Covers a := by
  constructor
  · intro hc
    exact ⟨List.mem_of_find?_eq_some hc, by simpa using List.find?_some hc⟩
  · rintro ⟨hc, hdepth, hcov⟩
    have hsome : (callAt calls n a).isSome := by
      rw [callAt, List.find?_isSome]
      exact ⟨c, hc, decide_eq_true ⟨hdepth, hcov⟩⟩
    obtain ⟨d, hd⟩ := Option.isSome_iff_exists.1 hsome
    obtain ⟨hdepth', hcov'⟩ : d.depth.toNat = n ∧ d.Covers a := by simpa using List.find?_some hd
    rw [hd, h.eq_of_covers (List.mem_of_find?_eq_some hd) hc
      (UInt32.toNat_inj.1 (hdepth'.trans hdepth.symm)) hcov' hcov]

end ProperlyNested

/-! ## Chains of calls -/

/-- Whether each call of a chain, innermost first, is as deep as there are calls around it. -/
def Stacked : List InlineCall → Prop
  | [] => True
  | c :: rest => c.depth.toNat = rest.length ∧ Stacked rest

namespace Stacked

variable {chain : List InlineCall} {c : InlineCall} {a : UInt64} {n : Nat}

theorem depth_lt (h : Stacked chain) (hc : c ∈ chain) : c.depth.toNat < chain.length := by
  induction chain with
  | nil => cases hc
  | cons d rest ih =>
      rw [List.length_cons]
      rcases List.mem_cons.1 hc with rfl | hc
      · exact Nat.lt_succ_of_le (Nat.le_of_eq h.1)
      · exact Nat.lt_succ_of_lt (ih h.2 hc)

theorem exists_depth (h : Stacked chain) (hn : n < chain.length) :
    ∃ c ∈ chain, c.depth.toNat = n := by
  induction chain with
  | nil => cases hn
  | cons d rest ih =>
      rcases Nat.lt_succ_iff_lt_or_eq.1 hn with hlt | rfl
      · obtain ⟨c, hc, hdepth⟩ := ih h.2 hlt
        exact ⟨c, List.mem_cons_of_mem _ hc, hdepth⟩
      · exact ⟨d, List.mem_cons_self, h.1⟩

theorem dropWhile (h : Stacked chain) (p : InlineCall → Bool) : Stacked (chain.dropWhile p) := by
  induction chain with
  | nil => exact h
  | cons c rest ih =>
      rw [List.dropWhile_cons]
      split
      · exact ih h.2
      · exact h

end Stacked

def innerDepth : Option InlineCall → Nat
  | none => 0
  | some p => p.depth.toNat + 1

def CalledFrom : Option InlineCall → InlineCall → Prop
  | none, c => c.depth = 0
  | some p, c => p.depth.toNat + 1 = c.depth.toNat ∧ p.Encloses c

theorem CalledFrom.depth_eq {caller : Option InlineCall} {c : InlineCall} (h : CalledFrom caller c) :
    c.depth.toNat = innerDepth caller := by
  cases caller with
  | none => exact congrArg UInt32.toNat h
  | some p => exact h.1.symm

section Opening

variable {calls opened rest chain : List InlineCall} {c : InlineCall} {now : UInt64}
  (hnested : ProperlyNested calls)
  (hcalls : calls.Pairwise fun c d => FunctionBuilder.callOrder c d = true)
  (hsplit : calls = opened ++ c :: rest)
  (h : ChainAt opened now chain) (hstacked : Stacked chain) (hle : now ≤ c.address)

include hnested hsplit h hstacked hle

theorem length_ended_le : (chain.dropWhile (·.stop ≤ c.address)).length ≤ c.depth.toNat := by
  refine Nat.not_lt.1 fun hlt => ?_
  obtain ⟨q, hq, hdepth⟩ := (hstacked.dropWhile _).exists_depth hlt
  obtain ⟨hq, hcov⟩ := (h.mem_ended_iff hle).1 hq
  have hapart := hnested.apart
  rw [hsplit] at hapart
  have hsize := hnested.sized c (hsplit ▸ List.mem_append_right _ List.mem_cons_self)
  rcases (List.pairwise_append.1 hapart).2.2 q hq c List.mem_cons_self (UInt32.toNat_inj.1 hdepth)
    with hbefore | hbehind
  · exact UInt64.not_lt.2 hbefore hcov.2
  · have hlt := UInt64.lt_of_lt_of_le (InlineCall.lt_stop hsize hcov.2) hbehind
    exact UInt64.not_lt.2 hcov.1 hlt

omit hstacked in
include hcalls in
/-- The call around another one is opened before it, and still open. -/
theorem exists_open_caller (hdepth : c.depth ≠ 0) :
    ∃ p ∈ chain.dropWhile (·.stop ≤ c.address),
      p.depth.toNat + 1 = c.depth.toNat ∧ p.Encloses c := by
  obtain ⟨p, hp, hp', hencloses⟩ :=
    hnested.enclosed c (hsplit ▸ List.mem_append_right _ List.mem_cons_self) hdepth
  refine ⟨p, (h.mem_ended_iff hle).2 ⟨?_, hencloses.1⟩, hp', hencloses⟩
  rw [hsplit] at hp hcalls
  rcases List.mem_append.1 hp with hp | hp
  · exact hp
  · rcases List.mem_cons.1 hp with rfl | hp
    · omega
    · have horder := (List.pairwise_cons.1 (List.pairwise_append.1 hcalls).2.1).1 p hp
      rcases FunctionBuilder.callOrder_iff.1 horder with hlt | ⟨-, hle⟩
      · exact absurd hencloses.1.1 (UInt64.not_le.2 hlt)
      · have hle := UInt32.le_iff_toNat_le.1 hle
        omega

include hcalls in
/-- As many calls are open around a call as its depth says; the innermost of them calls it, and it
ends no later than any of them. -/
theorem called_from_innermost :
    (chain.dropWhile (·.stop ≤ c.address)).length = c.depth.toNat ∧
      CalledFrom (chain.dropWhile (·.stop ≤ c.address)).head? c ∧
      ∀ p ∈ chain.dropWhile (·.stop ≤ c.address), c.stop ≤ p.stop := by
  have hlength := length_ended_le hnested hsplit h hstacked hle
  have hended := h.ended hle
  have hstacked' := hstacked.dropWhile (·.stop ≤ c.address)
  by_cases hdepth : c.depth = 0
  · have hzero : c.depth.toNat = 0 := congrArg UInt32.toNat hdepth
    rw [hzero] at hlength
    rw [List.length_eq_zero_iff.1 (Nat.le_zero.1 hlength)]
    exact ⟨hzero.symm, hdepth, nofun⟩
  · obtain ⟨p, hp, hp', hencloses⟩ := exists_open_caller hnested hcalls hsplit h hle hdepth
    cases hchain : chain.dropWhile (·.stop ≤ c.address) with
    | nil =>
        rw [hchain] at hp
        cases hp
    | cons q outer =>
        rw [hchain] at hp hlength hended hstacked'
        -- The call around `c` is the innermost one, since those around `q` are not deep enough.
        obtain rfl : p = q := by
          refine (List.mem_cons.1 hp).resolve_right fun hp => ?_
          have hlt := hstacked'.2.depth_lt hp
          rw [List.length_cons] at hlength
          omega
        refine ⟨?_, ⟨hp', hencloses⟩, List.forall_mem_cons.2 ⟨hencloses.2, fun q hq => ?_⟩⟩
        · rw [List.length_cons, ← hstacked'.1, hp']
        · exact UInt64.le_trans hencloses.2 ((List.pairwise_cons.1 hended.stops).1 q hq)

end Opening

end Postmortem.Debug
