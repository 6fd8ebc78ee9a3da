import Postmortem.Postfix.Evaluator
import Postmortem.Proofs.Outcomes
import Postmortem.Proofs.SortedMaps

/-!
# Assignments one after the other

The assignments of a text are carried out from left to right, each on what those before it have
left, up to the first that has no value.  What was assigned until then stays, and all other
registers keep the value that they had, or have none as before.
-/

set_option autoImplicit false

namespace Postmortem.Postfix.Evaluator

variable {w : Width} {ev mid last : Evaluator w} {as before after : List (Assignment w)}

structure Gives (ev next : Evaluator w) (r : Register) (value : Word w) : Prop where
  memory : next.memory = ev.memory
  endian : next.endian = ev.endian
  given : next.registers.find? r = some value
  others : ∀ q, q ≠ r → next.registers.find? q = ev.registers.find? q

theorem gives_iff {next : Evaluator w} {r : Register} {value : Word w} :
    ev.Gives next r value ↔ next = ev.set r value := by
  constructor
  · rintro ⟨hmemory, hendian, hgiven, hothers⟩
    have hregisters : next.registers = ev.registers.insert r value := by
      apply SortedMap.eq_of_find?
      intro q
      by_cases hq : q = r
      · rw [hq, hgiven, SortedMap.find?_insert_self]
      · rw [hothers q hq, SortedMap.find?_insert_of_ne _ hq]
    cases next
    cases hmemory
    cases hendian
    cases hregisters
    rfl
  · rintro rfl
    exact ⟨rfl, rfl, SortedMap.find?_insert_self _ _ _,
      fun q hq => SortedMap.find?_insert_of_ne _ hq _⟩

/-- Whether some assignments, each of which has a value on what those before it have left, lead from
an evaluator to another one. -/
inductive CarriesOut : Evaluator w → List (Assignment w) → Evaluator w → Prop where
  | nothing (ev : Evaluator w) : CarriesOut ev [] ev
  | next {ev mid last : Evaluator w} {a : Assignment w} {rest : List (Assignment w)}
    {value : Word w} (evaluates : ev.evaluate a.expr = .ok value)
    (gives : ev.Gives mid a.target value) (carries : CarriesOut mid rest last) :
    CarriesOut ev (a :: rest) last

theorem CarriesOut.find?_of_ne (h : ev.CarriesOut as last) {q : Register}
    (hq : ∀ a ∈ as, a.target ≠ q) : last.registers.find? q = ev.registers.find? q := by
  induction h with
  | nothing => rfl
  | next _ gives _ ih =>
      obtain ⟨ha, hrest⟩ := List.forall_mem_cons.1 hq
      rw [ih hrest, gives.others q (Ne.symm ha)]

theorem CarriesOut.split (h : ev.CarriesOut (before ++ after) last) :
    ∃ mid, ev.CarriesOut before mid ∧ mid.CarriesOut after last := by
  induction before generalizing ev with
  | nil => exact ⟨ev, .nothing ev, h⟩
  | cons a before ih =>
      cases h with
      | next evaluates gives carries =>
          obtain ⟨mid, hbefore, hafter⟩ := ih carries
          exact ⟨mid, .next evaluates gives hbefore, hafter⟩

/-- A register has the value of the last assignment to it, on what the assignments before that one
have left. -/
theorem CarriesOut.find?_target {a : Assignment w} (h : ev.CarriesOut (before ++ a :: after) last)
    (hafter : ∀ c ∈ after, c.target ≠ a.target) :
    ∃ mid value, ev.CarriesOut before mid ∧ mid.evaluate a.expr = .ok value ∧
      last.registers.find? a.target = some value := by
  obtain ⟨mid, hbefore, hrest⟩ := h.split
  cases hrest with
  | next evaluates gives carries =>
      exact ⟨mid, _, hbefore, evaluates, (carries.find?_of_ne hafter).trans gives.given⟩

/-- The registers that some assignments are to, besides those that were changed before. -/
def targets (changed : SortedMap Register Unit) (as : List (Assignment w)) :
    SortedMap Register Unit :=
  as.foldl (fun m a => m.insert a.target ()) changed

/-- Assignments are carried out up to the end or to the first that has no value. -/
theorem assignAll_cases (ev : Evaluator w) (changed : SortedMap Register Unit)
    (as : List (Assignment w)) :
    (∃ last, ev.CarriesOut as last ∧
      ev.assignAll changed as = (none, targets changed as, last)) ∨
    ∃ applied a rest last e, as = applied ++ a :: rest ∧ ev.CarriesOut applied last ∧
      last.evaluate a.expr = .error e ∧
      ev.assignAll changed as = (some e, targets changed applied, last) := by
  induction as generalizing ev changed with
  | nil => exact .inl ⟨ev, .nothing ev, rfl⟩
  | cons a as ih =>
      cases hvalue : ev.evaluate a.expr with
      | error e =>
          have hassign : ev.assign a = .error e := by rw [assign, hvalue]; rfl
          refine .inr ⟨[], a, as, ev, e, rfl, .nothing ev, hvalue, ?_⟩
          rw [assignAll, hassign]
          rfl
      | ok value =>
          have hassign : ev.assign a =
              .ok (ev.registers.contains a.target, ev.set a.target value) := by
            rw [assign, hvalue]
            rfl
          have hgives : ev.Gives (ev.set a.target value) a.target value := gives_iff.2 rfl
          rw [assignAll, hassign]
          rcases ih (ev.set a.target value) (changed.insert a.target ()) with
            ⟨last, hcarries, hrun⟩ | ⟨applied, b, rest, last, e, rfl, hcarries, hfails, hrun⟩
          · exact .inl ⟨last, .next hvalue hgives hcarries, hrun⟩
          · exact .inr ⟨a :: applied, b, rest, last, e, rfl, .next hvalue hgives hcarries, hfails,
              hrun⟩

/-- The second of three assignments has no value: the first is carried out, the third is not. -/
example :
    ({ registers := .ofList [(.var "$eax", 4), (.var "$edx", 9)] } : Evaluator .w32).assignAll
        .empty
        [⟨.var "$eax", .op (.register (.var "$eax")) (.value 1) .add, rfl⟩,
          ⟨.var "$ecx", .op (.register (.var "$eax")) (.value 0) .div, rfl⟩,
          ⟨.var "$edx", .value 7, rfl⟩] =
      (some .divisionByZero, .ofList [(.var "$eax", ())],
        { registers := .ofList [(.var "$eax", 5), (.var "$edx", 9)] }) := by
  rfl

theorem mem_keys_targets {q : Register} :
    q ∈ (targets .empty as).keys ↔ ∃ a ∈ as, a.target = q := by
  rw [SortedMap.mem_keys_iff, targets]
  rcases SortedMap.find?_foldl_insert q Assignment.target (fun _ => ()) as .empty with
    ⟨a, ha, hkey, hfind⟩ | ⟨hne, hfind⟩
  · exact iff_of_true ⟨_, hfind⟩ ⟨a, ha, hkey⟩
  · rw [hfind]
    refine iff_of_false ?_ ?_
    · rintro ⟨_, hnone⟩
      cases hnone
    · rintro ⟨a, ha, hkey⟩
      exact hne a ha hkey

/-- A text that cannot be read changes nothing.  Otherwise a front part of its assignments is
carried out from left to right: all of them, and then the registers that they are to are returned,
in order and each once, or those before the first that has no value on what they have left.
Registers that no assignment of this part is to are as before, and each other one has the value of
the last of these assignments to it. -/
theorem assignments_apply_in_order (ev : Evaluator w) (s : String) :
    match parseAssignments w s with
    | .error e => ev.process s = (.error (.parsing e), ev)
    | .ok as => ∃ applied rest last, as = applied ++ rest ∧
        ev.CarriesOut applied last ∧ (ev.process s).2 = last ∧
        (∀ q, (∀ a ∈ applied, a.target ≠ q) →
          last.registers.find? q = ev.registers.find? q) ∧
        (∀ before a after, applied = before ++ a :: after →
          (∀ c ∈ after, c.target ≠ a.target) →
          ∃ mid value, ev.CarriesOut before mid ∧ mid.evaluate a.expr = .ok value ∧
            last.registers.find? a.target = some value) ∧
        ((rest = [] ∧ ∃ changed, (ev.process s).1 = .ok changed ∧
            changed.Pairwise (fun q r => compare q r = .lt) ∧
            ∀ q, q ∈ changed ↔ ∃ a ∈ applied, a.target = q) ∨
          ∃ a more e, rest = a :: more ∧ last.evaluate a.expr = .error e ∧
            (ev.process s).1 = .error (.evaluation e)) := by
  cases hparse : parseAssignments w s with
  | error e => simp only [process, hparse]
  | ok as =>
      rcases ev.assignAll_cases .empty as with
        ⟨last, hcarries, hrun⟩ | ⟨applied, a, rest, last, e, rfl, hcarries, hfails, hrun⟩
      · have hprocess : ev.process s = (.ok (targets .empty as).keys, last) := by
          simp only [process, hparse, hrun]
        rw [hprocess]
        refine ⟨as, [], last, (List.append_nil as).symm, hcarries, rfl,
          fun q hq => hcarries.find?_of_ne hq, ?_,
          .inl ⟨rfl, _, rfl, ?_, fun q => mem_keys_targets⟩⟩
        · rintro before a after rfl hafter
          exact hcarries.find?_target hafter
        · exact List.pairwise_map.2 (targets .empty as).increasing
      · have hprocess : ev.process s = (.error (.evaluation e), last) := by
          simp only [process, hparse, hrun]
        rw [hprocess]
        refine ⟨applied, a :: rest, last, rfl, hcarries, rfl, fun q hq => hcarries.find?_of_ne hq,
          ?_, .inr ⟨a, rest, e, rfl, hfails, rfl⟩⟩
        rintro before c after rfl hafter
        exact hcarries.find?_target hafter

end Postmortem.Postfix.Evaluator
