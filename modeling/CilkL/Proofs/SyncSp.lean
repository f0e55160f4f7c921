/-
Module: CilkL.Proofs.SyncSp
Layer: Proofs
Purpose: The field `sync_sp` telescopes. One call moves the field by its line on the frame's ledger, so a run
  moves it by the balance, and the balance of puts and takes in turn telescopes; all modulo 2^64.
Imports: CilkL.Runtime.SyncSp
Trusted boundary: none
Main exports: SyncMemory.step_syncSp, SyncMemory.run_syncSp, sync_sp_telescopes, FrameHeap.syncMemory_putStack
Open obligations: none
-/
import CilkL.Runtime.SyncSp

namespace CilkL

variable {φ ψ : Type} [DecidableEq φ] [DecidableEq ψ]

namespace SyncMemory

/-! ### One call -/

section Stores

omit [DecidableEq φ] in
/-- What is read of the field after a store into it. -/
@[simp] theorem setSyncSp_syncSp (memory : SyncMemory φ ψ) (ff x : ψ) (word : StackWord) :
    (memory.setSyncSp ff word).syncSp x = if x = ff then word else memory.syncSp x := rfl

omit [DecidableEq ψ] in
/-- A store into a context leaves the field alone. -/
@[simp] theorem setSp_syncSp (memory : SyncMemory φ ψ) (sf : φ) (sp : StackWord) :
    (memory.setSp sf sp).syncSp = memory.syncSp := rfl

omit [DecidableEq φ] in
/-- A full frame is made with a null field. -/
theorem makeFullFrame_syncSp (memory : SyncMemory φ ψ) (ff : ψ) : (memory.makeFullFrame ff).syncSp ff = 0 := by
  simp [makeFullFrame]

end Stores

/-- `cilkrts_resume` leaves the field null, and the frame goes on where the field said. -/
theorem cilkrtsResume_spec (memory : SyncMemory φ ψ) (sf : φ) (ff : ψ) :
    (memory.cilkrtsResume sf ff).syncSp ff = 0 ∧
      ((memory.cilkrtsResume sf ff).frames sf).sp = memory.syncSp ff := by
  constructor
  · simp [cilkrtsResume, longjmpToSf, takeStack]
  · simp [cilkrtsResume, longjmpToSf, setSp]

/-- A call moves the field of a full frame by its line on the frame's ledger. -/
theorem step_syncSp (memory : SyncMemory φ ψ) (ff : ψ) (call : SyncCall φ ψ) :
    (memory.step call).syncSp ff =
      memory.syncSp ff + ((memory.posting ff call).map Posting.value).getD 0 := by
  cases call with
  | putStack x sf =>
      by_cases own : x = ff
      · subst own
        simp [step, putStack, posting, Posting.value, add_comm]
      · simp [step, putStack, posting, own, Ne.symm own]
  | takeStack x sp =>
      by_cases own : x = ff
      · subst own
        simp [step, takeStack, posting, Posting.value, sub_eq_add_neg]
      · simp [step, takeStack, posting, own, Ne.symm own]
  | adjustStack x size =>
      by_cases own : x = ff
      · subst own
        simp [step, adjustStack, posting, Posting.value]
      · simp [step, adjustStack, posting, own, Ne.symm own]
  | resetJumpBuffersForResume stackBase x sf =>
      by_cases own : x = ff
      · subst own
        simp [step, resetJumpBuffersForResume, takeStack, posting, Posting.value, sub_eq_add_neg]
      · simp [step, resetJumpBuffersForResume, takeStack, posting, own, Ne.symm own]
  | cilkrtsResume sf x =>
      by_cases own : x = ff
      · subst own
        simp [step, (memory.cilkrtsResume_spec sf x).1, posting, Posting.value]
      · simp [step, cilkrtsResume, longjmpToSf, takeStack, posting, own, Ne.symm own]
  | saveContext sf context => simp [step, posting]

/-! ### Runs -/

/-- A run after its first call. -/
@[simp] theorem run_cons (memory : SyncMemory φ ψ) (call : SyncCall φ ψ) (rest : List (SyncCall φ ψ)) :
    memory.run (call :: rest) = (memory.step call).run rest := rfl

@[simp] theorem run_nil (memory : SyncMemory φ ψ) : memory.run [] = memory := rfl

/-- A run of one part and then the other. -/
theorem run_append (memory : SyncMemory φ ψ) (earlier later : List (SyncCall φ ψ)) :
    memory.run (earlier ++ later) = (memory.run earlier).run later :=
  List.foldl_append

/-- The ledger of a run of one part and then the other. -/
theorem ledger_append (memory : SyncMemory φ ψ) (ff : ψ) (earlier later : List (SyncCall φ ψ)) :
    memory.ledger ff (earlier ++ later) =
      memory.ledger ff earlier ++ (memory.run earlier).ledger ff later := by
  induction earlier generalizing memory with
  | nil => rfl
  | cons call rest ih =>
      have tail := ih (memory.step call)
      cases line : memory.posting ff call with
      | none => simpa only [List.cons_append, run_cons, ledger, line] using tail
      | some posting => simpa only [List.cons_append, run_cons, ledger, line, List.cons.injEq, true_and] using tail

/-- A run moves the field of a full frame by the balance of the frame's ledger. -/
theorem run_syncSp (memory : SyncMemory φ ψ) (ff : ψ) (calls : List (SyncCall φ ψ)) :
    (memory.run calls).syncSp ff = memory.syncSp ff + balance (memory.ledger ff calls) := by
  induction calls generalizing memory with
  | nil => simp [ledger]
  | cons call rest ih =>
      have tail := ih (memory.step call)
      rw [memory.step_syncSp ff call] at tail
      cases line : memory.posting ff call with
      | none => simpa only [run_cons, ledger, line, Option.map_none, Option.getD_none, add_zero] using tail
      | some posting =>
          simpa only [run_cons, ledger, line, Option.map_some, Option.getD_some, balance_cons, add_assoc]
            using tail

/-- The line of a put on the ledger. -/
theorem ledger_putStack (memory : SyncMemory φ ψ) (ff : ψ) (sf : φ) :
    memory.ledger ff [.putStack ff sf] = [.credit (memory.frames sf).sp] := by
  simp [ledger, posting]

/-- Calls without a put on the frame give its ledger no credit. -/
theorem firstCredit_ledger_eq_none {ff : ψ} {calls : List (SyncCall φ ψ)}
    (noPut : ∀ sf, .putStack ff sf ∉ calls) (memory : SyncMemory φ ψ) :
    firstCredit (memory.ledger ff calls) = none := by
  induction calls generalizing memory with
  | nil => rfl
  | cons call rest ih =>
      have tail := ih (fun sf isPut => noPut sf (List.mem_cons_of_mem _ isPut)) (memory.step call)
      cases line : memory.posting ff call with
      | none => simpa only [ledger, line] using tail
      | some posting =>
          cases posting with
          | debit _ => simpa only [ledger, line, firstCredit] using tail
          | adjustment _ => simpa only [ledger, line, firstCredit] using tail
          | credit amount =>
              -- only a put on the frame is a credit
              cases call with
              | putStack x sf =>
                  by_cases own : x = ff
                  · subst own
                    exact absurd List.mem_cons_self (noPut sf)
                  · simp [SyncMemory.posting, own] at line
              | _ => simp [SyncMemory.posting] at line

/-! ### Puts and takes in turn -/

variable {memory : SyncMemory φ ψ} {ff : ψ} {before between after : List (SyncCall φ ψ)}

/-- Behind a put the field is the first stack pointer put, the changes of the cycles and the adjustments. -/
theorem syncSp_of_put {sf : φ} (null : memory.syncSp ff = 0)
    (alternates : Alternates .credit (memory.ledger ff (before ++ [SyncCall.putStack ff sf]))) :
    ∃ first : StackWord, firstCredit (memory.ledger ff (before ++ [SyncCall.putStack ff sf])) = some first ∧
      ((memory.run before).step (.putStack ff sf)).syncSp ff =
        first + (changes none (memory.ledger ff (before ++ [SyncCall.putStack ff sf]))).sum +
          (adjustments (memory.ledger ff (before ++ [SyncCall.putStack ff sf]))).sum := by
  have total := memory.run_syncSp ff (before ++ [SyncCall.putStack ff sf])
  rw [null, zero_add, run_append, run_cons, run_nil] at total
  rw [total]
  rw [ledger_append, ledger_putStack] at alternates ⊢
  exact balance_of_credited _ _ alternates

/-- Behind a take it is a put's turn, and up to that put the field is only adjusted. -/
theorem syncSp_between {take : SyncCall φ ψ} {taken : StackWord}
    (alternates : Alternates .credit (memory.ledger ff (before ++ take :: (between ++ after))))
    (isTake : (memory.run before).posting ff take = some (.debit taken))
    (noPut : ∀ sf, .putStack ff sf ∉ between) :
    (memory.run (before ++ take :: between)).syncSp ff = (memory.run before).syncSp ff - taken +
      (adjustments (((memory.run before).step take).ledger ff between)).sum := by
  have line : (memory.run before).ledger ff (take :: (between ++ after)) =
      .debit taken :: ((memory.run before).step take).ledger ff (between ++ after) := by
    simp only [ledger, isTake]
  rw [ledger_append, line, ledger_append] at alternates
  have adjusted := balance_of_no_credit _ alternates.after_debit.of_append
    (firstCredit_ledger_eq_none noPut _)
  have onTake := (memory.run before).step_syncSp ff take
  rw [isTake, Option.map_some, Option.getD_some, Posting.value, ← sub_eq_add_neg] at onTake
  rw [run_append, run_cons, run_syncSp, adjusted, onTake]

/-- The next put behind a take restores what the field was before the take, up to the change of the stack
pointer since the take and the adjustments since. -/
theorem syncSp_restored {take : SyncCall φ ψ} {taken : StackWord} {sf : φ}
    (alternates : Alternates .credit (memory.ledger ff (before ++ take :: (between ++ after))))
    (isTake : (memory.run before).posting ff take = some (.debit taken))
    (noPut : ∀ sf, .putStack ff sf ∉ between) :
    ((memory.run (before ++ take :: between)).step (.putStack ff sf)).syncSp ff =
      (memory.run before).syncSp ff + (((memory.run (before ++ take :: between)).frames sf).sp - taken) +
        (adjustments (((memory.run before).step take).ledger ff between)).sum := by
  simp only [step, putStack, setSyncSp_syncSp, if_true, syncSp_between alternates isTake noPut]
  abel

end SyncMemory

open SyncMemory

/-- A run that puts and takes the stack of a full frame in turn, the put first and from a null field: behind
each put the field is the first stack pointer that was put, and the changes of the stack pointer from each
take to the put behind it, and the adjustments. A put restores what the field was before the last take, up to
the change since that take and the adjustments since. A take at the field itself leaves it null, as
`cilkrts_resume` does. -/
theorem sync_sp_telescopes (memory : SyncMemory φ ψ) (ff : ψ) (calls : List (SyncCall φ ψ))
    (null : memory.syncSp ff = 0) (alternates : Alternates .credit (memory.ledger ff calls)) :
    (∀ (before : List (SyncCall φ ψ)) (sf : φ) (after : List (SyncCall φ ψ)),
      calls = before ++ SyncCall.putStack ff sf :: after →
      ∃ first : StackWord, firstCredit (memory.ledger ff calls) = some first ∧
        ((memory.run before).step (.putStack ff sf)).syncSp ff =
          first + (changes none (memory.ledger ff (before ++ [SyncCall.putStack ff sf]))).sum +
            (adjustments (memory.ledger ff (before ++ [SyncCall.putStack ff sf]))).sum) ∧
    (∀ (before : List (SyncCall φ ψ)) (take : SyncCall φ ψ) (taken : StackWord)
      (between : List (SyncCall φ ψ)) (sf : φ) (after : List (SyncCall φ ψ)),
      calls = before ++ take :: (between ++ SyncCall.putStack ff sf :: after) →
      (memory.run before).posting ff take = some (.debit taken) →
      (∀ x, SyncCall.putStack ff x ∉ between) →
        ((memory.run (before ++ take :: between)).step (.putStack ff sf)).syncSp ff =
          (memory.run before).syncSp ff +
            (((memory.run (before ++ take :: between)).frames sf).sp - taken) +
            (adjustments (((memory.run before).step take).ledger ff between)).sum) ∧
    (∀ before : List (SyncCall φ ψ),
      ((memory.run before).step (.takeStack ff ((memory.run before).syncSp ff))).syncSp ff = 0) ∧
    (∀ (before : List (SyncCall φ ψ)) (sf : φ),
      ((memory.run before).step (.cilkrtsResume sf ff)).syncSp ff = 0 ∧
        (((memory.run before).step (.cilkrtsResume sf ff)).frames sf).sp = (memory.run before).syncSp ff) := by
  refine ⟨?_, ?_, ?_, ?_⟩
  · rintro before sf after rfl
    have split : before ++ SyncCall.putStack ff sf :: after = (before ++ [SyncCall.putStack ff sf]) ++ after := by
      simp
    rw [split, ledger_append] at alternates ⊢
    obtain ⟨first, isFirst, total⟩ := syncSp_of_put null alternates.of_append
    exact ⟨first, firstCredit_append isFirst, total⟩
  · rintro before take taken between sf after rfl isTake noPut
    exact syncSp_restored alternates isTake noPut
  · intro before
    simp [step, takeStack]
  · intro before sf
    exact (memory.run before).cilkrtsResume_spec sf ff

/-- A loot whose frame is suspended at 4096, goes on at 36608 on another stack, grows it by 64 bytes, 32 of
which are an array it gives up, is suspended at a sync and goes on there. -/
def oneSteal : List (SyncCall Unit Unit) :=
  [.saveContext () { sp := 4096, suspended := true }, .putStack () (),
    .resetJumpBuffersForResume 36870 () (), .saveContext () { sp := 36544, suspended := true },
    .adjustStack () 32, .putStack () (), .cilkrtsResume () ()]

/-- The steal is suspended the second time 32 bytes below the first. -/
theorem sync_sp_telescopes_oneSteal :
    let memory : SyncMemory Unit Unit :=
      SyncMemory.makeFullFrame { frames := fun _ => { sp := 0, suspended := false }, syncSp := fun _ => 1 } ()
    (memory.run (oneSteal.take 6)).syncSp () = 4096 + (36544 - 36608) + 32 ∧
      (memory.run oneSteal).syncSp () = 0 := by
  intro memory
  obtain ⟨-, restored, -, resumed⟩ := sync_sp_telescopes memory () oneSteal (makeFullFrame_syncSp _ _) (by decide)
  have again := restored [.saveContext () { sp := 4096, suspended := true }, .putStack () ()]
    (.resetJumpBuffersForResume 36870 () ()) 36608
    [.saveContext () { sp := 36544, suspended := true }, .adjustStack () 32] () [.cilkrtsResume () ()]
    rfl (by decide) (by simp)
  exact ⟨again, (resumed (oneSteal.take 6) ()).1⟩

/-! ### The promotion of a call chain -/

variable {ω β : Type}

omit [DecidableEq φ] in
/-- The promotion of a call chain puts the stack of the loot's full frame as the words do. -/
theorem FrameHeap.syncMemory_putStack (heap : FrameHeap ω φ ψ β) (ff : ψ) (sf : φ) :
    (heap.putStack ff sf).syncMemory = heap.syncMemory.putStack ff sf := by
  unfold FrameHeap.syncMemory SyncMemory.putStack SyncMemory.setSyncSp
  congr 1
  funext x
  by_cases own : x = ff
  · subst own
    simp [FrameHeap.putStack, BitVec.ofInt_add]
  · simp [FrameHeap.putStack, setAt_other own]

end CilkL
