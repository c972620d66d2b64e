import JoltWasm.Backend.Step
import JoltWasm.Lib.Keeps

/-!
# Runs

The states a run visits, and the records it leaves.
-/

namespace JoltWasm

open Lib

namespace Machine

/-- What every step does: it fetches the row at the pc, records it, and moves to the next pc. -/
theorem stepWith_ok {prover : Prover} {code : List Ir} {m next : Machine} {record : Record}
    (step : stepWith prover code m = .ok (record, next)) :
    code[m.pc.toNat]? = some record.instruction ∧ record.pc = m.pc ∧ record.nextPc = next.pc := by
  unfold stepWith at step
  cases fetch : code[m.pc.toNat]? with
  | none =>
      rw [fetch] at step
      cases step
  | some instruction =>
      rw [fetch] at step
      simp only at step
      split at step
      · cases step
      · split at step
        · cases step
        · obtain ⟨⟨ram, rdValue, memory⟩, -, step⟩ := except_bind_eq_ok.mp step
          obtain ⟨pc, -, step⟩ := except_bind_eq_ok.mp step
          cases step
          exact ⟨rfl, rfl, rfl⟩

/-- The states before the steps of a run from `m`. -/
inductive Visits (code : List Ir) (m : Machine) : Machine → Prop where
  | start : Visits code m m
  | step {at_ next : Machine} {record : Record} (visited : Visits code m at_)
      (stepped : Machine.step code at_ = .ok (record, next)) (goes : record.instruction ≠ .halt) :
      Visits code m next

/-- The states after the first step are visited. -/
theorem Visits.after {code : List Ir} {m next at_ : Machine} {record : Record}
    (stepped : Machine.step code m = .ok (record, next)) (goes : record.instruction ≠ .halt)
    (visited : Visits code next at_) : Visits code m at_ := by
  induction visited with
  | start => exact .step .start stepped goes
  | step _ stepped goes ih => exact .step ih stepped goes

/-- A run's first step, and the run from there. -/
theorem run_ok {code : List Ir} {limit fuel : ℕ} {m last : Machine} {records : List Record}
    (ran : run code limit (fuel + 1) m = .ok (records, last)) :
    ∃ record next, step code m = .ok (record, next) ∧
      (record.instruction = .halt ∧ records = [record] ∧ last = next ∨
        record.instruction ≠ .halt ∧ ∃ rest, records = record :: rest ∧
          run code limit fuel next = .ok (rest, last)) := by
  unfold run at ran
  cases stepped : step code m with
  | error trap =>
      rw [stepped] at ran
      cases ran
  | ok result =>
      obtain ⟨record, next⟩ := result
      rw [stepped] at ran
      refine ⟨record, next, rfl, ?_⟩
      by_cases halts : record.instruction = .halt
      · simp only [if_pos halts] at ran
        cases ran
        exact .inl ⟨halts, rfl, rfl⟩
      · simp only [if_neg halts] at ran
        cases rest : run code limit fuel next with
        | error e =>
            rw [rest] at ran
            cases ran
        | ok result =>
            rw [rest] at ran
            cases ran
            exact .inr ⟨halts, _, rfl, rfl⟩

/-- Every record of a run is that of a step from a visited state. -/
theorem run_visits {code : List Ir} {limit fuel : ℕ} {m last : Machine} {records : List Record}
    (ran : run code limit fuel m = .ok (records, last)) :
    ∀ record ∈ records, ∃ at_ next, Visits code m at_ ∧ step code at_ = .ok (record, next) := by
  induction fuel generalizing m records with
  | zero => cases ran
  | succ fuel ih =>
      obtain ⟨record, next, stepped, ⟨-, rfl, -⟩ | ⟨goes, rest, rfl, tail⟩⟩ := run_ok ran
      · intro other member
        rw [List.mem_singleton.mp member]
        exact ⟨m, next, .start, stepped⟩
      · intro other member
        rcases List.mem_cons.mp member with rfl | member
        · exact ⟨m, next, .start, stepped⟩
        · obtain ⟨at_, after, visited, stepped'⟩ := ih tail other member
          exact ⟨at_, after, visited.after stepped goes, stepped'⟩

/-- The records of a run start at its pc and chain. -/
theorem run_chain {code : List Ir} {limit fuel : ℕ} {m last : Machine} {records : List Record}
    (ran : run code limit fuel m = .ok (records, last)) :
    (∃ record rest, records = record :: rest ∧ record.pc = m.pc) ∧
      records.IsChain fun a b => a.nextPc = b.pc := by
  induction fuel generalizing m records with
  | zero => cases ran
  | succ fuel ih =>
      obtain ⟨record, next, stepped, ⟨-, rfl, -⟩ | ⟨-, rest, rfl, tail⟩⟩ := run_ok ran
      · exact ⟨⟨record, [], rfl, (stepWith_ok stepped).2.1⟩, .singleton _⟩
      · obtain ⟨-, pc, nextPc⟩ := stepWith_ok stepped
        obtain ⟨⟨second, after, rfl, starts⟩, chain⟩ := ih tail
        exact ⟨⟨record, _, rfl, pc⟩, List.isChain_cons_cons.mpr ⟨nextPc.trans starts.symm, chain⟩⟩

/-- A run ends at a halt row. -/
theorem run_last {code : List Ir} {limit fuel : ℕ} {m last : Machine} {records : List Record}
    (ran : run code limit fuel m = .ok (records, last)) :
    ∃ record, records.getLast? = some record ∧ record.instruction = .halt := by
  induction fuel generalizing m records with
  | zero => cases ran
  | succ fuel ih =>
      obtain ⟨record, next, -, ⟨halts, rfl, -⟩ | ⟨-, rest, rfl, tail⟩⟩ := run_ok ran
      · exact ⟨record, rfl, halts⟩
      · obtain ⟨final, last, halts⟩ := ih tail
        refine ⟨final, ?_, halts⟩
        rw [List.getLast?_cons, last]
        rfl

/-- An invocation that returns ran from the entry. -/
theorem invoke_ok {program : IrProgram} {m : Machine} {name : String} {args : List U64} {limit : ℕ}
    {execution : Execution} (invoked : invoke program m name args limit = .ok execution) :
    ∃ entered last, enter program m name args = .ok entered ∧
      run program.code limit limit entered = .ok (execution.records, last) ∧
      finish program name execution.records last = .ok execution := by
  obtain ⟨entered, found, invoked⟩ := except_bind_eq_ok.mp invoked
  obtain ⟨⟨records, last⟩, ran, finished⟩ := except_bind_eq_ok.mp invoked
  have same : execution.records = records := by
    obtain ⟨words, -, rest⟩ := except_bind_eq_ok.mp finished
    obtain ⟨results, -, rest⟩ := except_bind_eq_ok.mp rest
    obtain ⟨terminated, -, rest⟩ := except_bind_eq_ok.mp rest
    cases rest
    rfl
  rw [same]
  exact ⟨entered, last, found, ran, finished⟩

end Machine

end JoltWasm
