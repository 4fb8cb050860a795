import Pvos.Socksrv.Client

/-!
# Several texts in one read

The client does not wait for the verdict on a text before it sends the next
one.  Texts that the server has not read yet come with one `read`, and get one
verdict: `OK` for a single text that was not corrupted, and `ERR` for every
other batch, because the sums in front of the last text count twice.
-/

namespace Pvos.Socksrv

open Pvos.Support Pvos.Checksum Pvos.Readline

/-- The largest pid of a Linux process. -/
def pidMax : ℕ := 4194304

/-- The texts one behind the other. -/
def batchText (pid : ℕ) (batch : List LineChoice) : Text :=
  batch.flatMap (writtenLine pid)

/-- A single text that was not corrupted. -/
def batchCorrect : List LineChoice → Bool
  | [choice] => !choice.falsy
  | _ => false

section Batch

variable {pid : ℕ} {batch : List LineChoice}

/-! ## The texts of the client -/

/-- What the client sends is what a producer writes for the same digits; the
first of its texts and every second one behind it are corrupted. -/
theorem cstring_clientText (lBuf : Memory) (hpid : pid < 2 ^ 30)
    (choice : LineChoice) {lI : ℕ} (hI : choice.falsy = decide (lI % 2 = 1)) :
    (clientText lBuf pid choice.digits lI).cstring lBufSize 0 =
      writtenLine pid choice := by
  have hlength := length_writtenLine_lt hpid choice
  rw [writtenLine_eq hpid] at hlength
  rw [clientText_eq, ← hI, writtenLine_eq hpid]
  exact cstring_printText lBuf (lineSum_fits hpid choice).2 hlength

theorem four_le_length_writtenLine (hpid : pid < 2 ^ 30)
    (choice : LineChoice) : 4 ≤ (writtenLine pid choice).length := by
  have hlength := length_checksumText pid choice.digits choice.falsy
  have hpos : ∀ n : ℤ, 1 ≤ (decimal n).length := by
    intro n
    by_contra hnot
    have hnil := List.length_eq_zero_iff.mp (Nat.lt_one_iff.mp (not_le.mp hnot))
    have hscan := splitSign_decimal n []
    rw [hnil] at hscan
    exact absurd (congrArg (fun r => r.2.2) hscan).symm
      (by simpa [splitSign] using decimalNat_ne_nil n.natAbs)
  have hfirst := hpos pid
  have hlast := hpos (textSum pid choice.digits choice.falsy)
  rw [writtenLine_eq hpid]
  exact (show 4 ≤ _ by omega).trans_eq hlength.symm

/-! ## Numbers of a batch -/

/-- The numbers of a text are read up to its newline, also with more text
behind it. -/
theorem numbers_messageText_append {nums : List ℤ} {last : ℤ}
    (h : ∀ num ∈ nums ++ [last], -2 ^ 31 ≤ num ∧ num < 2 ^ 31)
    {spaces : Text} (hspaces : ∀ b ∈ spaces, isSpace b = true) (rest : Text) :
    numbers (spaces ++ (messageText nums last ++ rest)) =
      nums ++ last :: numbers (10 :: rest) := by
  induction nums generalizing spaces with
  | nil =>
      obtain ⟨hlow, hhigh⟩ := h last (by simp)
      have htext : messageText [] last ++ rest =
          decimal last ++ (10 :: rest) := by
        simp [messageText, spaced]
      rw [htext, numbers_decimal hspaces hlow hhigh (by rintro b ⟨⟩; decide)]
      rfl
  | cons num nums ih =>
      obtain ⟨hlow, hhigh⟩ := h num (by simp)
      have htext : messageText (num :: nums) last ++ rest =
          decimal num ++ ([32] ++ (messageText nums last ++ rest)) := by
        simp [messageText, spaced]
      rw [htext, numbers_decimal hspaces hlow hhigh (by rintro b ⟨⟩; decide),
        ih (fun n hn => h n (List.mem_cons_of_mem _ hn))
          (fun b hb => isSpace_of_mem_space hb)]
      rfl

/-- All numbers of the texts. -/
def batchNums (pid : ℕ) (batch : List LineChoice) : List ℤ :=
  batch.flatMap fun choice => lineNums pid choice ++ [lineSum pid choice]

theorem line_fits (hpid : pid < 2 ^ 30) (choice : LineChoice) :
    ∀ num ∈ lineNums pid choice ++ [lineSum pid choice],
      -2 ^ 31 ≤ num ∧ num < 2 ^ 31 := by
  have hsum := lineSum_fits hpid choice
  intro num hnum
  simp only [lineNums, digitNums, List.cons_append, List.mem_cons,
    List.mem_append, List.mem_map, List.not_mem_nil, or_false] at hnum
  rcases hnum with rfl | ⟨d, -, rfl⟩ | rfl <;> omega

theorem numbers_batchText (hpid : pid < 2 ^ 30) (batch : List LineChoice)
    {spaces : Text} (hspaces : spaces = [] ∨ spaces = [10]) :
    numbers (spaces ++ batchText pid batch) = batchNums pid batch := by
  induction batch generalizing spaces with
  | nil =>
      rw [batchText, List.flatMap_nil, List.append_nil]
      have hempty : sscanfInt [] = none := rfl
      have hnewline : sscanfInt [10] = none := rfl
      rcases hspaces with rfl | rfl
      · exact numbers_of_none hempty
      · exact numbers_of_none hnewline
  | cons choice batch ih =>
      have hspace : ∀ b ∈ spaces, isSpace b = true := by
        rcases hspaces with rfl | rfl
        · exact List.forall_mem_nil _
        · exact List.forall_mem_singleton.mpr rfl
      rw [batchText, List.flatMap_cons, writtenLine_eq hpid,
        numbers_messageText_append (line_fits hpid choice) hspace]
      have hrest := ih (Or.inr rfl)
      rw [List.singleton_append] at hrest
      rw [← batchText, hrest, batchNums, batchNums, List.flatMap_cons]
      simp

/-! ## The verdict -/

/-- A text in front of the last one adds at least its pid twice. -/
theorem batchNums_sum (pid : ℕ) (batch : List LineChoice) :
    2 * (pid * batch.length : ℕ) ≤ (batchNums pid batch).sum ∧
      (batchNums pid batch).sum ≤ 2 * ((pid + 262) * batch.length : ℕ) := by
  induction batch with
  | nil => simp [batchNums]
  | cons choice batch ih =>
      have hnums := lineNums_sum pid choice
      have hsum : lineSum pid choice ≤ (lineNums pid choice).sum + 1 ∧
          (lineNums pid choice).sum ≤ lineSum pid choice := by
        unfold lineSum
        split <;> omega
      have hcons : (batchNums pid (choice :: batch)).sum =
          (lineNums pid choice).sum + lineSum pid choice +
            (batchNums pid batch).sum := by
        simp [batchNums, add_assoc]
      rw [hcons, List.length_cons, Nat.mul_add, Nat.mul_add]
      omega

theorem length_batch_le (hpid : pid < 2 ^ 30) (batch : List LineChoice) :
    4 * batch.length ≤ (batchText pid batch).length := by
  induction batch with
  | nil => simp
  | cons choice batch ih =>
      have hfirst := four_le_length_writtenLine hpid choice
      rw [batchText, List.flatMap_cons, List.length_append, ← batchText,
        List.length_cons]
      omega

theorem lastIsSum_batch (hpid : 1 ≤ pid) (hmax : pid ≤ pidMax)
    (hne : batch ≠ []) (hlen : (batchText pid batch).length ≤ 511) :
    lastIsSum (numbers (batchText pid batch)) = batchCorrect batch := by
  have hsmall : pid < 2 ^ 30 := hmax.trans_lt (by decide)
  have hcount := length_batch_le hsmall batch
  have hnums := numbers_batchText hsmall batch (Or.inl rfl)
  rw [List.nil_append] at hnums
  rw [hnums]
  obtain ⟨front, choice, rfl⟩ :
      ∃ front choice, batch = front ++ [choice] :=
    ⟨_, _, (List.dropLast_concat_getLast hne).symm⟩
  have hsplit : batchNums pid (front ++ [choice]) =
      (batchNums pid front ++ lineNums pid choice) ++ [lineSum pid choice] := by
    simp [batchNums]
  have hfront := batchNums_sum pid front
  have hline := lineNums_sum pid choice
  have hbound : (pid + 262) * front.length ≤ (pidMax + 262) * 127 := by
    rw [List.length_append] at hcount
    exact Nat.mul_le_mul (by omega) (by omega)
  have hmaxEq : pidMax = 4194304 := rfl
  have hfits : FitsInt (batchNums pid front ++ lineNums pid choice).sum := by
    rw [List.sum_append]
    constructor <;> omega
  rw [hsplit, Bool.eq_iff_iff, lastIsSum_concat hfits, List.sum_append,
    lineSum]
  cases front with
  | nil =>
      simp only [batchNums, List.flatMap_nil, List.sum_nil, zero_add,
        List.nil_append, batchCorrect, Bool.not_eq_true']
      cases choice.falsy <;> simp
  | cons first rest =>
      have hpos : pid * 1 ≤ pid * (first :: rest).length :=
        Nat.mul_le_mul_left pid (by simp)
      have hwrong : batchCorrect (first :: rest ++ [choice]) = false := by
        cases rest <;> rfl
      rw [hwrong]
      refine iff_of_false ?_ Bool.false_ne_true
      split <;> omega

/-! ## Served batches -/

theorem isNumberByte_writtenLine (hpid : pid < 2 ^ 30) {choice : LineChoice}
    {b : UInt8} (hb : b ∈ writtenLine pid choice) : isNumberByte b = true := by
  have hdecimal : ∀ {n : ℤ}, b ∈ decimal n → isNumberByte b = true := by
    intro n hn
    rcases isDigit_or_minus_of_mem_decimal hn with hdigit | rfl
    · simp [isNumberByte, hdigit]
    · decide
  have hspace : b = 32 ∨ b = 10 → isNumberByte b = true := by
    rintro (rfl | rfl) <;> decide
  rw [writtenLine_eq hpid, messageText, spaced] at hb
  simp only [List.mem_append, List.mem_flatMap, List.mem_singleton] at hb
  rcases hb with ⟨num, -, hnum | hb⟩ | hlast | hb
  · exact hdecimal hnum
  · exact hspace (Or.inl hb)
  · exact hdecimal hlast
  · exact hspace (Or.inr hb)

/-- A batch read into the zeroed buffer gets its verdict, the connection stays,
and the buffer is zeroed again. -/
theorem served_batch {lBuf : Memory} (hzero : ZeroBuf lBuf) (hpid : 1 ≤ pid)
    (hmax : pid ≤ pidMax) (hne : batch ≠ [])
    (hlen : (batchText pid batch).length ≤ 511) (currentNum : ℤ) :
    ∃ buf, readDataFromClient lBuf currentNum (.data (batchText pid batch)) =
        ⟨0, false, some (replyText (batchCorrect batch)), buf⟩ ∧
      ZeroBuf buf := by
  have hsmall : pid < 2 ^ 30 := hmax.trans_lt (by decide)
  have hcount := length_batch_le hsmall batch
  have hpos := List.length_pos_of_ne_nil hne
  have hbytes : ∀ b ∈ batchText pid batch, isNumberByte b = true := by
    intro b hb
    obtain ⟨choice, -, hb⟩ := List.mem_flatMap.mp hb
    exact isNumberByte_writtenLine hsmall hb
  obtain ⟨correct, buf, hserved, hbuf, hverdict⟩ :=
    read_verdict hzero (by omega) hlen hbytes currentNum
  have hnums : numbers (batchText pid batch) ≠ [] := by
    have hall := numbers_batchText hsmall batch (Or.inl rfl)
    rw [List.nil_append] at hall
    rw [hall]
    obtain ⟨choice, rest, rfl⟩ := List.exists_cons_of_ne_nil hne
    simp [batchNums, lineNums]
  rw [hverdict hnums, lastIsSum_batch hpid hmax hne hlen] at hserved
  exact ⟨buf, hserved, hbuf⟩

end Batch

end Pvos.Socksrv
