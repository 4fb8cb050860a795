import Pvos.Readline.Readline

/-!
# `readline_tout` delivers the stream line by line

The invariant of the loop says where the bytes of the current line are: a
prefix is in `out_buffer`, the rest lies between `starting_offset` and
`offset` in the inner buffer.  What follows them in the stream is the rest of
the inner buffer and the chunks not yet read.
-/

namespace Pvos.Readline

open Pvos.Support

/-- `buffer[offset..read_bytes)`, the bytes kept for the next call. -/
def FdBufferPair.buffered (pair : FdBufferPair) : List UInt8 :=
  pair.buffer.bytes pair.offset.toNat
    (pair.readBytes.toNat - pair.offset.toNat)

/-- Behind the bytes read nothing is kept. -/
theorem FdBufferPair.buffered_eq_nil {pair : FdBufferPair}
    (h : pair.readBytes ≤ pair.offset) : pair.buffered = [] := by
  rw [buffered, show pair.readBytes.toNat - pair.offset.toNat = 0 by omega]
  rfl

/-- A pair as calls leave it: nothing read yet, or `offset` inside the bytes
read. -/
structure FdBufferPair.Ok (pair : FdBufferPair) : Prop where
  bufferLen : pair.bufferLen = lBufferSize
  range : (pair.offset = -1 ∧ pair.readBytes = 0) ∨
    (0 ≤ pair.offset ∧ pair.offset ≤ pair.readBytes)
  readBytes_le : pair.readBytes ≤ lBufferSize

/-- A chunk one `read` can return. -/
def IsChunk (bytes : List UInt8) : Prop :=
  1 ≤ bytes.length ∧ bytes.length ≤ lBufferSize

/-- A text without newline and the newline. -/
def IsLine (line : List UInt8) : Prop :=
  ∃ text, newline ∉ text ∧ line = text ++ [newline]

/-- What follows the bytes stored of a line: its end or another byte of it. -/
theorem next_byte {stored text rest tail : List UInt8} {b : UInt8}
    (h : stored ++ b :: rest = text ++ newline :: tail)
    (hstored : newline ∉ stored) (htext : newline ∉ text) :
    (b = newline ∧ stored = text ∧ rest = tail) ∨
      (b ≠ newline ∧ stored.length < text.length) := by
  induction stored generalizing text with
  | nil =>
      cases text with
      | nil =>
          obtain ⟨rfl, rfl⟩ := List.cons.inj h
          exact Or.inl ⟨rfl, rfl, rfl⟩
      | cons c text =>
          obtain ⟨rfl, -⟩ := List.cons.inj h
          refine Or.inr ⟨?_, Nat.zero_lt_succ _⟩
          rintro rfl
          exact htext List.mem_cons_self
  | cons c stored ih =>
      rw [List.mem_cons, not_or] at hstored
      cases text with
      | nil =>
          obtain ⟨rfl, -⟩ := List.cons.inj h
          exact absurd rfl hstored.1
      | cons d text =>
          obtain ⟨rfl, hrest⟩ := List.cons.inj h
          rw [List.mem_cons, not_or] at htext
          rcases ih hrest hstored.2 htext.2 with ⟨hb, rfl, hr⟩ | ⟨hb, hlt⟩
          · exact Or.inl ⟨hb, rfl, hr⟩
          · exact Or.inr ⟨hb, Nat.succ_lt_succ hlt⟩

theorem FdBufferPair.buffered_filled (pair : FdBufferPair)
    (bytes : List UInt8) : (pair.filled bytes).buffered = bytes := by
  simp [buffered, filled, Memory.bytes_write _ _ (Nat.le_refl _)]

/-- A chunk that was read leaves a byte to be taken. -/
theorem LoopState.filled_lt (l : LoopState) {bytes : List UInt8}
    (hbytes : IsChunk bytes) :
    (l.filled bytes).pair.offset < (l.filled bytes).pair.readBytes := by
  have hpos := hbytes.1
  simp only [filled, FdBufferPair.filled]
  omega

theorem FdBufferPair.ok_filled {pair : FdBufferPair} (h : pair.Ok)
    {bytes : List UInt8} (hbytes : IsChunk bytes) : (pair.filled bytes).Ok := by
  have hle : (bytes.length : ℤ) ≤ lBufferSize := by exact_mod_cast hbytes.2
  exact ⟨h.bufferLen, Or.inr ⟨by simp [filled], by simp [filled]⟩, hle⟩

theorem FdBufferPair.ok_reset {pair : FdBufferPair} (h : pair.Ok) :
    pair.reset.Ok :=
  ⟨h.bufferLen, Or.inr ⟨by simp [reset], by simp [reset]⟩, by simp [reset]⟩

theorem FdBufferPair.ok_fresh (fd : ℤ) : (fresh fd).Ok :=
  ⟨rfl, Or.inl ⟨rfl, rfl⟩, by simp [fresh]⟩

/-! ## The loop -/

/-- `got` are the bytes of the line seen so far. -/
structure LoopInv (count : ℕ) (l : LoopState) (got : List UInt8) : Prop where
  pair : l.pair.Ok
  start_le : (l.startingOffset : ℤ) ≤ l.pair.offset
  lineLen : l.lineLen = got.length
  copied : l.copied + l.pendingLen = got.length
  content : l.out.bytes 0 l.copied ++
    l.pair.buffer.bytes l.startingOffset l.pendingLen = got
  zeroed : ∀ j, l.copied ≤ j → j < count → l.out j = 0
  place : l.startingOffset = 0 ∨ l.copied = 0

section Loop

variable {count : ℕ} {l : LoopState} {got : List UInt8}

/-- The next byte is the first buffered one. -/
theorem buffered_advance (h : 0 ≤ l.pair.offset)
    (hlt : l.pair.offset < l.pair.readBytes) :
    l.pair.buffered = l.byte :: l.advance.pair.buffered := by
  have hlen : l.pair.readBytes.toNat - l.pair.offset.toNat =
      1 + (l.pair.readBytes.toNat - (l.pair.offset + 1).toNat) := by omega
  have hnext : (l.pair.offset + 1).toNat = l.pair.offset.toNat + 1 := by omega
  simp only [FdBufferPair.buffered, LoopState.advance]
  rw [hlen, Memory.bytes_add, hnext]
  simp [Memory.bytes, LoopState.byte]

theorem LoopInv.advance (h : LoopInv count l got)
    (hlt : l.pair.offset < l.pair.readBytes) :
    LoopInv count l.advance (got ++ [l.byte]) := by
  have hstart := h.start_le
  have hpending : l.advance.pendingLen = l.pendingLen + 1 := by
    simp only [LoopState.pendingLen, LoopState.advance]
    omega
  have hoffset : l.startingOffset + l.pendingLen = l.pair.offset.toNat := by
    simp only [LoopState.pendingLen]
    omega
  have hcopied := h.copied
  refine ⟨⟨h.pair.bufferLen, Or.inr ⟨?_, ?_⟩, h.pair.readBytes_le⟩, ?_, ?_, ?_,
    ?_, h.zeroed, h.place⟩
  · simp only [LoopState.advance]
    omega
  · exact hlt
  · simp only [LoopState.advance]
    omega
  · simp [LoopState.advance, h.lineLen]
  · rw [hpending, List.length_append, List.length_singleton]
    simp only [LoopState.advance]
    omega
  · rw [hpending, Memory.bytes_add, ← List.append_assoc]
    congr 1
    · exact h.content
    · simp [LoopState.advance, Memory.bytes, LoopState.byte, hoffset]

/-- A new chunk replaces the inner buffer, whose bytes go to `out_buffer`. -/
theorem LoopInv.refill (h : LoopInv count l got) {bytes : List UInt8}
    (hbytes : IsChunk bytes) : LoopInv count (l.flush.filled bytes) got := by
  have hcopied := h.copied
  have hpair : l.flush.pair.Ok := FdBufferPair.ok_reset h.pair
  refine ⟨FdBufferPair.ok_filled hpair hbytes, by simp [LoopState.filled,
    FdBufferPair.filled], h.lineLen, ?_, ?_, ?_, Or.inl rfl⟩
  · simpa [LoopState.filled, LoopState.flush, LoopState.pendingLen,
      FdBufferPair.filled] using hcopied
  · have hzero : (l.flush.filled bytes).pendingLen = 0 := rfl
    rw [hzero, Memory.bytes_zero, List.append_nil]
    simp only [LoopState.filled, LoopState.flush, LoopState.copyOut]
    rw [Memory.bytes_add, Nat.zero_add, Memory.bytes_memcpy,
      Memory.bytes_memcpy_of_disjoint _ _ _ (Or.inl (by omega))]
    exact h.content
  · intro j hj hlt
    simp only [LoopState.filled, LoopState.flush, LoopState.copyOut] at hj ⊢
    rw [Memory.memcpy, if_neg (by omega)]
    exact h.zeroed j (by omega) hlt

/-- `r` delivers the line `got ++ rest`, of which `got` was seen before; what
was buffered and read since is `rest` and the bytes kept for the next call. -/
structure Delivers (pair : FdBufferPair) (got : List UInt8)
    (read : List (List UInt8)) (rest : List UInt8) (r : Returned) : Prop where
  ret : r.ret = (got ++ rest).length
  content : r.out.bytes 0 (got ++ rest).length = got ++ rest
  terminated : r.out (got ++ rest).length = 0
  ok : r.pair.Ok
  fd : r.pair.fd = pair.fd
  buffered : pair.buffered ++ read.flatten = rest ++ r.pair.buffered

/-- The statements behind the loop deliver the bytes seen. -/
theorem LoopInv.finish (h : LoopInv count l got) (hlt : got.length < count) :
    Delivers l.pair got [] [] (l.finish count) := by
  have hstart := h.start_le
  have hcopied := h.copied
  have hplace := h.place
  have hpending : (l.startingOffset : ℤ) + l.pendingLen = l.pair.offset := by
    simp only [LoopState.pendingLen]
    omega
  have hterminator : got.length ≤ l.copied + l.pair.offset.toNat := by omega
  rw [LoopState.finish, if_neg (by rw [h.lineLen]; omega)]
  refine ⟨by rw [h.lineLen, List.append_nil], ?_, ?_, h.pair, rfl, by simp⟩
  · rw [List.append_nil]
    simp only
    rw [Memory.bytes_write_of_disjoint _ _ (Or.inl (by omega)),
      LoopState.copyOut, ← hcopied, Memory.bytes_add, Nat.zero_add,
      Memory.bytes_memcpy,
      Memory.bytes_memcpy_of_disjoint _ _ _ (Or.inl (by omega))]
    exact h.content
  · rw [List.append_nil]
    simp only [Memory.write, List.length_singleton]
    by_cases heq : got.length = l.copied + l.pair.offset.toNat
    · rw [if_pos (by omega), heq]
      simp
    · rw [if_neg (by omega), LoopState.copyOut, Memory.memcpy,
        if_neg (by omega)]
      exact h.zeroed _ (by omega) hlt

/-- A byte looked at belongs to the rest of the line. -/
theorem Delivers.cons {pair pair' : FdBufferPair} {b : UInt8}
    {read read' : List (List UInt8)} {rest : List UInt8} {r : Returned}
    (h : Delivers pair' (got ++ [b]) read' rest r) (hfd : pair'.fd = pair.fd)
    (hbuffered : pair.buffered ++ read.flatten = b :: pair'.buffered) :
    Delivers pair got (read ++ read') (b :: rest) r := by
  have happend : got ++ b :: rest = got ++ [b] ++ rest := by simp
  refine ⟨?_, ?_, ?_, h.ok, h.fd.trans hfd, ?_⟩
  · rw [happend]
    exact h.ret
  · rw [happend]
    exact h.content
  · rw [happend]
    exact h.terminated
  · rw [List.flatten_append, ← List.append_assoc, hbuffered, List.cons_append,
      h.buffered, List.cons_append]

/-- While bytes are missing from the line, the block that reads goes on. -/
theorem LoopInv.exists_refill (h : LoopInv count l got)
    {chunks : List (List UInt8)} (hchunks : ∀ c ∈ chunks, IsChunk c)
    (hstream : l.pair.buffered ++ chunks.flatten ≠ []) :
    ∃ l' read unread, chunks = read ++ unread ∧
      l.refill (chunks.map .data) = .goes l' (unread.map .data) ∧
      LoopInv count l' got ∧ l'.pair.fd = l.pair.fd ∧
      l'.pair.offset < l'.pair.readBytes ∧
      l'.pair.buffered = l.pair.buffered ++ read.flatten := by
  by_cases hleft : l.pair.offset < l.pair.readBytes
  · refine ⟨l, [], chunks, rfl, ?_, h, rfl, hleft, by simp⟩
    unfold LoopState.refill
    rw [if_neg (by omega)]
  · have hempty : l.pair.buffered = [] :=
      FdBufferPair.buffered_eq_nil (Int.not_lt.mp hleft)
    rw [hempty, List.nil_append] at hstream
    cases chunks with
    | nil => simp at hstream
    | cons c chunks =>
        have hc : IsChunk c := hchunks c List.mem_cons_self
        refine ⟨l.flush.filled c, [c], chunks, rfl, ?_, h.refill hc, rfl, ?_, ?_⟩
        · unfold LoopState.refill
          rw [if_pos (by omega)]
          cases c with
          | nil => exact absurd hc.1 (by decide)
          | cons b bytes => rfl
        · exact l.flush.filled_lt hc
        · rw [hempty]
          simp only [LoopState.filled, FdBufferPair.buffered_filled]
          simp

/-- The loop returns with the whole line and keeps what follows it. -/
theorem readLoop_line (todo : ℕ) {text : List UInt8} (later : List UInt8)
    {chunks : List (List UInt8)} (h : LoopInv count l got)
    (htodo : got.length + todo = count) (htext : newline ∉ text)
    (hcount : got.length + text.length + 1 < count)
    (hchunks : ∀ c ∈ chunks, IsChunk c)
    (hstream : l.pair.buffered ++ chunks.flatten =
      text ++ newline :: later) :
    ∃ r read unread, chunks = read ++ unread ∧
      readLoop count todo l (chunks.map .data) =
        .returns r (unread.map .data) ∧
      Delivers l.pair got read (text ++ [newline]) r := by
  induction todo generalizing l got text chunks with
  | zero => omega
  | succ todo ih =>
      obtain ⟨l', read, unread, rfl, hrefill, hinv, hfd, hlt, hbuffered⟩ :=
        h.exists_refill hchunks (by simp [hstream])
      have hoffset : 0 ≤ l'.pair.offset := by
        have := hinv.start_le
        omega
      have hnext := buffered_advance hoffset hlt
      have hrest : l'.pair.buffered ++ unread.flatten =
          text ++ newline :: later := by
        rw [← hstream, hbuffered, List.flatten_append, List.append_assoc]
      rw [hnext, List.cons_append] at hrest
      rw [hnext] at hbuffered
      have hadvance := hinv.advance hlt
      simp only [readLoop, hrefill]
      cases text with
      | nil =>
          simp only [List.nil_append, List.cons.injEq] at hrest
          obtain ⟨hbyte, -⟩ := hrest
          rw [hbyte] at hadvance hbuffered
          have hfinish := hadvance.finish (by simpa using hcount)
          refine ⟨_, read, unread, rfl, if_pos hbyte, ?_⟩
          simpa using hfinish.cons hfd hbuffered.symm
      | cons b text =>
          simp only [List.cons_append, List.cons.injEq] at hrest
          obtain ⟨hbyte, hrest⟩ := hrest
          rw [hbyte] at hadvance hbuffered
          simp only [List.mem_cons, not_or] at htext
          have hlength : (got ++ [b]).length = got.length + 1 := by simp
          rw [List.length_cons] at hcount
          obtain ⟨r, read', unread', rfl, hloop, hdelivers⟩ :=
            ih hadvance (by omega) htext.2 (by omega)
              (fun c hc => hchunks c (List.mem_append_right _ hc)) hrest
          refine ⟨r, read ++ read', unread', by simp, ?_, ?_⟩
          · rw [if_neg (by rw [hbyte]; exact fun heq => htext.1 heq.symm)]
            exact hloop
          · exact hdelivers.cons hfd hbuffered.symm

end Loop

/-! ## One call -/

theorem loopInv_start (count : ℕ) {pair : FdBufferPair} (h : pair.Ok)
    (hoffset : 0 ≤ pair.offset) (out : Memory) :
    LoopInv count (.start pair (out.memset 0 0 count)) [] := by
  have hpending : (LoopState.start pair (out.memset 0 0 count)).pendingLen =
      0 := by
    simp only [LoopState.pendingLen, LoopState.start]
    omega
  refine ⟨h, ?_, rfl, ?_, ?_, ?_, Or.inr rfl⟩
  · simp only [LoopState.start]
    omega
  · rw [hpending]
    rfl
  · rw [hpending]
    rfl
  · intro j _ hj
    simp only [LoopState.start, Memory.memset]
    rw [if_pos (by omega)]

section Call

variable {count : ℕ} {pair : FdBufferPair} {line later : List UInt8}
  {chunks : List (List UInt8)}

/-- The loop from its start delivers the next line. -/
theorem readLoop_start_line (h : pair.Ok) (hoffset : 0 ≤ pair.offset)
    (out : Memory) (hline : IsLine line) (hcount : line.length < count)
    (hchunks : ∀ c ∈ chunks, IsChunk c)
    (hstream : pair.buffered ++ chunks.flatten = line ++ later) :
    ∃ r read unread, chunks = read ++ unread ∧
      readLoop count count (.start pair (out.memset 0 0 count))
        (chunks.map .data) = .returns r (unread.map .data) ∧
      Delivers pair [] read line r := by
  obtain ⟨text, htext, rfl⟩ := hline
  rw [List.length_append, List.length_singleton] at hcount
  rw [List.append_assoc, List.singleton_append] at hstream
  exact readLoop_line count later (loopInv_start count h hoffset out) (by simp)
    htext (by simpa using hcount) hchunks hstream

/-- A call on a descriptor whose stream goes on with a line shorter than
`count` returns this line. -/
theorem readPair_line (h : pair.Ok) (out : Memory) (hline : IsLine line)
    (hcount : line.length < count) (hchunks : ∀ c ∈ chunks, IsChunk c)
    (hstream : pair.buffered ++ chunks.flatten = line ++ later) :
    ∃ r read unread, chunks = read ++ unread ∧
      readPair pair (out.memset 0 0 count) count (chunks.map .data) =
        .returns r (unread.map .data) ∧
      Delivers pair [] read line r := by
  by_cases hfirst : pair.offset = -1
  · have hempty : pair.buffered = [] := by
      rcases h.range with ⟨-, hread⟩ | ⟨hoffset, -⟩
      · simp [FdBufferPair.buffered, hread]
      · omega
    rw [hempty, List.nil_append] at hstream
    cases chunks with
    | nil =>
        obtain ⟨text, -, rfl⟩ := hline
        simp at hstream
    | cons c chunks =>
        have hc : IsChunk c := hchunks c List.mem_cons_self
        obtain ⟨r, read, unread, rfl, hloop, hdelivers⟩ :=
          readLoop_start_line (FdBufferPair.ok_filled h hc)
            (by simp [FdBufferPair.filled]) out hline hcount
            (fun c' hc' => hchunks c' (List.mem_cons_of_mem _ hc'))
            (by rwa [FdBufferPair.buffered_filled])
        refine ⟨r, c :: read, unread, rfl, ?_, hdelivers.ret,
          hdelivers.content, hdelivers.terminated, hdelivers.ok,
          hdelivers.fd, ?_⟩
        · simp only [readPair, if_pos hfirst, List.map_cons]
          exact hloop
        · have hbuffered := hdelivers.buffered
          rwa [FdBufferPair.buffered_filled, ← List.flatten_cons,
            ← List.nil_append (c :: read).flatten, ← hempty] at hbuffered
  · have hoffset : 0 ≤ pair.offset := by
      rcases h.range with ⟨hneg, -⟩ | ⟨hpos, -⟩
      · exact absurd hneg hfirst
      · exact hpos
    obtain ⟨r, read, unread, rfl, hloop, hdelivers⟩ :=
      readLoop_start_line h hoffset out hline hcount hchunks hstream
    refine ⟨r, read, unread, rfl, ?_, hdelivers⟩
    simp only [readPair, if_neg hfirst]
    exact hloop

end Call

/-! ## Calls one after another -/

theorem pairOf_fd (pairs : List FdBufferPair) (fd : ℤ) :
    (pairOf pairs fd).fd = fd := by
  unfold pairOf
  cases hfind : pairs.find? fun pair => pair.fd = fd with
  | none => rfl
  | some pair => simpa using List.find?_some hfind

theorem pairOf_storePair (pairs : List FdBufferPair) (pair : FdBufferPair) :
    pairOf (storePair pairs pair) pair.fd = pair := by
  induction pairs with
  | nil => simp [storePair, pairOf]
  | cons first rest ih =>
      by_cases hfd : first.fd = pair.fd
      · simp [storePair, hfd, pairOf]
      · simpa [storePair, hfd, pairOf] using ih

theorem pairOf_of_new {pairs : List FdBufferPair} {fd : ℤ}
    (h : ∀ pair ∈ pairs, pair.fd ≠ fd) : pairOf pairs fd = .fresh fd := by
  have hfind : (pairs.find? fun pair => pair.fd = fd) = none := by
    simpa using h
  rw [pairOf, hfind]
  rfl

/-- What is left after a call: what it returned, the pairs and the outcomes. -/
structure AfterCall where
  returned : Returned
  pairs : List FdBufferPair
  outcomes : List Outcome

/-- Calls on one descriptor, each with its own buffer and `count`. -/
def readlineCalls (fd : ℤ) :
    List FdBufferPair → List (Memory × ℕ) → List Outcome →
      Option (List AfterCall)
  | _, [], _ => some []
  | pairs, (out, count) :: calls, outcomes =>
      match readlineTout pairs fd (some out) count outcomes with
      | .returns r pairs' outcomes' =>
          (readlineCalls fd pairs' calls outcomes').map fun results =>
            ⟨r, pairs', outcomes'⟩ :: results
      | _ => none

/-- The call delivered `line`; `taken` are all bytes of the stream returned
until then, which are followed by the bytes kept for the next call. -/
structure Delivered (fd : ℤ) (start : List UInt8) (chunks : List (List UInt8))
    (taken line : List UInt8) (a : AfterCall) : Prop where
  ret : a.returned.ret = line.length
  content : a.returned.out.bytes 0 line.length = line
  terminated : a.returned.out line.length = 0
  buffered : ∃ read unread, chunks = read ++ unread ∧
    a.outcomes = unread.map .data ∧
    start ++ read.flatten = taken ++ (pairOf a.pairs fd).buffered

theorem readlineCalls_lines {fd : ℤ} {pairs : List FdBufferPair}
    (hok : (pairOf pairs fd).Ok) {lines : List (List UInt8)}
    (hlines : ∀ line ∈ lines, IsLine line) {chunks : List (List UInt8)}
    (hchunks : ∀ c ∈ chunks, IsChunk c)
    (hstream : (pairOf pairs fd).buffered ++ chunks.flatten = lines.flatten)
    {calls : List (Memory × ℕ)} (hcalls : calls.length ≤ lines.length)
    (hcount : ∀ k (hk : k < calls.length), lines[k].length < calls[k].2) :
    ∃ results, readlineCalls fd pairs calls (chunks.map .data) = some results ∧
      results.length = calls.length ∧
      ∀ k (hk : k < results.length) (hl : k < lines.length),
        Delivered fd (pairOf pairs fd).buffered chunks
          (lines.take (k + 1)).flatten lines[k] results[k] := by
  induction calls generalizing pairs lines chunks with
  | nil => exact ⟨[], rfl, rfl, fun k hk => absurd hk (Nat.not_lt_zero k)⟩
  | cons call calls ih =>
      obtain ⟨out, count⟩ := call
      cases lines with
      | nil => simp at hcalls
      | cons line lines =>
          have hline : IsLine line := hlines line List.mem_cons_self
          have hfirst : line.length < count := hcount 0 (Nat.zero_lt_succ _)
          obtain ⟨r, read, unread, rfl, hcall, hret, hout, hzero, hok', hfd,
            hleft⟩ := readPair_line hok out hline hfirst hchunks hstream
          have hreadline : readlineTout pairs fd (some out) count
              ((read ++ unread).map .data) =
                .returns r (storePair pairs r.pair) (unread.map .data) := by
            simp only [readlineTout, Option.getD_some, Option.isNone_some,
              Bool.false_eq_true, false_and, if_false, hcall]
          have hpair : pairOf (storePair pairs r.pair) fd = r.pair := by
            have hstore := pairOf_storePair pairs r.pair
            rwa [hfd, pairOf_fd] at hstore
          have hrest : r.pair.buffered ++ unread.flatten = lines.flatten := by
            rw [List.flatten_append, ← List.append_assoc, hleft,
              List.flatten_cons, List.append_assoc] at hstream
            exact List.append_cancel_left hstream
          obtain ⟨results, hresults, hlength, hall⟩ :=
            ih (by rw [hpair]; exact hok')
              (fun l hl => hlines l (List.mem_cons_of_mem _ hl))
              (fun c hc => hchunks c (List.mem_append_right _ hc))
              (by rwa [hpair]) (Nat.le_of_succ_le_succ hcalls)
              (fun k hk => hcount (k + 1) (Nat.succ_lt_succ hk))
          refine ⟨⟨r, storePair pairs r.pair, unread.map .data⟩ :: results, ?_,
            by simp [hlength], ?_⟩
          · simp only [readlineCalls, hreadline, hresults, Option.map_some]
          · intro k hk hl
            cases k with
            | zero =>
                refine ⟨hret, hout, hzero, read, unread, rfl, rfl, ?_⟩
                simpa [hpair] using hleft
            | succ k =>
                have hk' := hall k (by simpa using hk) (by simpa using hl)
                obtain ⟨read', unread', hunread, houtcomes, hbuffered⟩ :=
                  hk'.buffered
                refine ⟨hk'.ret, hk'.content, hk'.terminated, read ++ read',
                  unread', by rw [hunread, List.append_assoc], houtcomes, ?_⟩
                rw [hpair] at hbuffered
                rw [List.flatten_append, ← List.append_assoc, hleft,
                  List.append_assoc, hbuffered, List.take_succ_cons,
                  List.flatten_cons, List.append_assoc,
                  List.getElem_cons_succ]

/-- Calls on a new descriptor deliver its lines one after another, whatever
chunks `read` returns. -/
theorem readline_lines (fd : ℤ) (pairs : List FdBufferPair)
    (lines chunks : List (List UInt8)) (calls : List (Memory × ℕ))
    (hnew : ∀ pair ∈ pairs, pair.fd ≠ fd)
    (hlines : ∀ line ∈ lines, IsLine line) (hchunks : ∀ c ∈ chunks, IsChunk c)
    (hstream : chunks.flatten = lines.flatten)
    (hcalls : calls.length ≤ lines.length)
    (hcount : ∀ k (hk : k < calls.length), lines[k].length < calls[k].2) :
    ∃ results, readlineCalls fd pairs calls (chunks.map .data) = some results ∧
      results.length = calls.length ∧
      ∀ k (hk : k < results.length) (hl : k < lines.length),
        Delivered fd [] chunks (lines.take (k + 1)).flatten lines[k]
          results[k] := by
  have hpair := pairOf_of_new hnew
  have hempty : (pairOf pairs fd).buffered = [] := by
    rw [hpair]
    rfl
  have hok : (pairOf pairs fd).Ok := by
    rw [hpair]
    exact FdBufferPair.ok_fresh fd
  obtain ⟨results, hresults, hlength, hall⟩ :=
    readlineCalls_lines hok hlines hchunks (by rwa [hempty]) hcalls hcount
  rw [hempty] at hall
  exact ⟨results, hresults, hlength, hall⟩

/-- Two lines in three chunks. -/
theorem readline_lines_two_lines :
    ∃ results, readlineCalls 5 [] [(fun _ => 7, 4), (fun _ => 9, 8)]
        ([[97, 98], [10, 99], [10]].map .data) = some results ∧
      results.length = 2 ∧
      ∀ k (hk : k < results.length) (hl : k < 2),
        Delivered 5 [] [[97, 98], [10, 99], [10]]
          (([[97, 98, 10], [99, 10]] : List (List UInt8)).take (k + 1)).flatten
          ([[97, 98, 10], [99, 10]] : List (List UInt8))[k] results[k] :=
  readline_lines 5 [] [[97, 98, 10], [99, 10]] [[97, 98], [10, 99], [10]]
    [(fun _ => 7, 4), (fun _ => 9, 8)] (by simp)
    (by
      intro line hline
      simp only [List.mem_cons, List.not_mem_nil, or_false] at hline
      rcases hline with rfl | rfl
      · exact ⟨[97, 98], by decide, rfl⟩
      · exact ⟨[99], by decide, rfl⟩)
    (by simp [IsChunk, lBufferSize]) rfl (Nat.le_refl 2)
    (by
      intro k hk
      match k, hk with
      | 0, _ => exact Nat.le_refl 4
      | 1, _ => exact Nat.le_add_right 3 5)

end Pvos.Readline
