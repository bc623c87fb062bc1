import OptLrc.Sockets

namespace OptLrc.Streams

open OptLrc.Galois OptLrc.Memory OptLrc.Sockets

/-- The call waits for ever, or it ends with `Q`: it does not leave its arrays. -/
def Ends {α : Type} (r : Except Fault α) (Q : α → Prop) : Prop :=
  match r with
  | .error e => e = .blocked
  | .ok a => Q a

section Rules

variable {α β : Type} {r : Except Fault α} {Q R : α → Prop}

@[simp] theorem ends_ok {a : α} : Ends (.ok a) Q ↔ Q a := Iff.rfl

@[simp] theorem ends_blocked : Ends (.error .blocked) Q := rfl

theorem Ends.mono (h : Ends r Q) (hQ : ∀ a, Q a → R a) : Ends r R := by
  cases r with
  | error e => exact h
  | ok a => exact hQ a h

theorem Ends.bind {f : α → Except Fault β} {S : β → Prop} (h : Ends r Q)
    (hf : ∀ a, Q a → Ends (f a) S) : Ends (r >>= f) S := by
  cases r with
  | error e => exact h
  | ok a => exact hf a h

end Rules

/-- Reading does not touch what is written. -/
structure SameOutput (i i' : Instance) : Prop where
  buffer : i'.writeBuffer = i.writeBuffer
  offset : i'.writeBufferOffset = i.writeBufferOffset
  outgoing : i'.socket.outgoing = i.socket.outgoing
  count : i'.responseCount = i.responseCount

theorem SameOutput.refl (i : Instance) : SameOutput i i := ⟨rfl, rfl, rfl, rfl⟩

theorem SameOutput.trans {i j k : Instance} (h : SameOutput i j) (h' : SameOutput j k) : SameOutput i k :=
  ⟨h'.buffer.trans h.buffer, h'.offset.trans h.offset, h'.outgoing.trans h.outgoing,
    h'.count.trans h.count⟩

theorem SameOutput.written {i j : Instance} (h : SameOutput i j) : j.written = i.written := by
  rw [Instance.written, Instance.written, Instance.unsent, Instance.unsent, h.buffer, h.offset, h.outgoing]

variable {i : Instance}

/-- The state after a `recv` that moved `n` bytes. -/
def received (i : Instance) (off n : Nat) (recvs : List (Except Errno Nat)) : Instance :=
  { i with
    readBuffer := i.readBuffer.take off ++ i.socket.incoming.take n ++ i.readBuffer.drop (off + n)
    socket := { i.socket with incoming := i.socket.incoming.drop n, recvs := recvs } }

theorem received_zero (off : Nat) (recvs : List (Except Errno Nat)) :
    received i off 0 recvs = { i with socket := { i.socket with recvs := recvs } } := by
  simp [received]

theorem recv_ends {off room : Nat} (h : off + room ≤ i.readBuffer.length) :
    Ends (recv off room i) (fun p => ∃ n recvs, n ≤ room ∧ n ≤ i.socket.incoming.length ∧
      (p.1 = .ok n ∨ n = 0 ∧ ∃ e, p.1 = .error e) ∧ p.2 = received i off n recvs) := by
  unfold recv
  rw [if_neg (by omega)]
  cases hr : i.socket.recvs with
  | nil => exact ends_blocked
  | cons res recvs =>
    cases res with
    | error e =>
      exact ⟨0, recvs, Nat.zero_le _, Nat.zero_le _, .inr ⟨rfl, e, rfl⟩, (received_zero off recvs).symm⟩
    | ok n =>
      simp only
      split
      · exact ends_blocked
      · have hlen : (i.socket.incoming.take (min n room)).length = min (min n room) i.socket.incoming.length :=
          List.length_take
        rw [writeRange, if_pos (.inr (by omega))]
        refine ⟨_, recvs, ?_, ?_, .inl rfl, ?_⟩
        · omega
        · omega
        · rw [received, hlen, ← List.take_eq_take_min]

theorem send_ends {off length : Nat} (h : off + length ≤ i.writeBuffer.length) :
    Ends (send off length i) (fun p => ∃ n sends, n ≤ length ∧
      (p.1 = .ok n ∨ n = 0 ∧ ∃ e, p.1 = .error e) ∧
      p.2 = { i with socket := { i.socket with
        outgoing := i.socket.outgoing ++ (i.writeBuffer.drop off).take n, sends := sends } }) := by
  unfold send
  rw [readRange, if_pos (.inr h), ok_bind]
  cases i.socket.sends with
  | nil => exact ends_blocked
  | cons res sends =>
    cases res with
    | error e => exact ⟨0, sends, Nat.zero_le _, .inr ⟨rfl, e, rfl⟩, by simp⟩
    | ok n =>
      refine ⟨min n length, sends, Nat.min_le_right _ _, .inl rfl, ?_⟩
      simp [List.take_take]

theorem pollLoop_ends (turns : Nat) :
    Ends (pollLoop turns i) (fun p => p.2.socket.outgoing = i.socket.outgoing ∧
      (p.1 = .success ∨ p.1 = .timeout → ∃ polls, p.2 = { i with socket := { i.socket with polls := polls } })) := by
  induction turns generalizing i with
  | zero => simp [pollLoop, quitServer]
  | succ turns ih =>
    rw [pollLoop]
    cases i.socket.polls with
    | nil => exact ends_blocked
    | cons polled polls =>
      have hnext := @ih { i with socket := { i.socket with polls := polls } }
      cases polled with
      | interrupted => exact hnext
      | error isPending =>
        cases isPending with
        | true => simp [quitServer]
        | false => exact hnext
      | _ => simp [quitServer]

theorem length_received {off n : Nat} {recvs : List (Except Errno Nat)} (hn : n ≤ i.socket.incoming.length)
    (h : off + n ≤ i.readBuffer.length) : (received i off n recvs).readBuffer.length = i.readBuffer.length := by
  simp only [received, List.length_append, List.length_take, List.length_drop]
  omega

/-- What a fill leaves: on success there is something to read, and the stream is as it was. -/
theorem ioFillLoop_ends (turns : Nat) (h : Sound i) (h0 : i.readBufferLength = 0) :
    Ends (ioFillLoop turns i) (fun p => p.2.socket.outgoing = i.socket.outgoing ∧
      (p.1 = .success → Sound p.2 ∧ SameOutput i p.2 ∧ p.2.stream = i.stream ∧ 0 < p.2.readBufferLength)) := by
  induction turns generalizing i with
  | zero => exact ends_blocked
  | succ turns ih =>
    have hread := h.read_length
    rw [ioFillLoop]
    apply (recv_ends (by omega)).bind
    rintro ⟨res, -⟩ ⟨n, recvs, hroom, hlen, hres, rfl⟩
    rcases hres with rfl | ⟨rfl, e, rfl⟩
    · cases n with
      | zero => simp [quitServer, received]
      | succ n =>
        refine ⟨rfl, fun _ => ⟨?_, ⟨rfl, rfl, rfl, rfl⟩, ?_, Nat.succ_pos n⟩⟩
        · refine ⟨h.isOpen, (@length_received i 0 _ recvs hlen (by omega)).trans hread, h.write_length, Nat.zero_add _, hroom,
            h.offset_le⟩
        · have hnil : i.unread = [] := by simp [Instance.unread, h0]
          rw [Instance.stream, Instance.stream, hnil]
          simp [Instance.unread, received, Nat.min_eq_left hlen]
    · rw [received_zero]
      have hretry : ∀ polls, Ends (ioFillLoop turns
          { i with socket := { i.socket with recvs := recvs, polls := polls } }) (fun p =>
          p.2.socket.outgoing = i.socket.outgoing ∧
          (p.1 = .success → Sound p.2 ∧ SameOutput i p.2 ∧ p.2.stream = i.stream ∧ 0 < p.2.readBufferLength)) := by
        intro polls
        have hnext := @ih { i with socket := { i.socket with recvs := recvs, polls := polls } }
          ⟨h.isOpen, hread, h.write_length, h.data, h.data_le, h.offset_le⟩ h0
        apply hnext.mono
        rintro p ⟨hout, hok⟩
        refine ⟨hout, fun hs => ?_⟩
        obtain ⟨hsound, hsame, hrest⟩ := hok hs
        exact ⟨hsound, ⟨hsame.buffer, hsame.offset, hsame.outgoing, hsame.count⟩, hrest⟩
      cases e with
      | interrupted => exact hretry i.socket.polls
      | again =>
        apply (pollLoop_ends 4).bind
        rintro ⟨rc, j⟩ ⟨hout, hok⟩
        by_cases hrc : rc = .success
        · obtain ⟨polls, rfl⟩ := hok (.inl hrc)
          simp only [hrc, if_true]
          exact hretry polls
        · simp only [hrc, if_false]
          exact ⟨hout, fun hs => absurd hs hrc⟩
      | _ => simp [quitServer]

theorem refill_ends (h : Sound i) :
    Ends (refill i) (fun p => p.2.socket.outgoing = i.socket.outgoing ∧
      (p.1 = .success → Sound p.2 ∧ SameOutput i p.2 ∧ p.2.stream = i.stream ∧ 0 < p.2.readBufferLength)) := by
  unfold refill
  by_cases h0 : i.readBufferLength = 0
  · rw [if_pos h0]
    exact ioFillLoop_ends _ h h0
  · rw [if_neg h0]
    exact ⟨rfl, fun _ => ⟨h, .refl i, rfl, Nat.pos_of_ne_zero h0⟩⟩

/-- The same instance with the first `n` unread bytes taken. -/
theorem take_unread {n : Nat} (h : Sound i) (hn : n ≤ i.readBufferLength) :
    Sound { i with readPtr := i.readPtr + n, readBufferLength := i.readBufferLength - n } ∧
      i.stream = (i.readBuffer.drop i.readPtr).take n ++
        ({ i with readPtr := i.readPtr + n, readBufferLength := i.readBufferLength - n } : Instance).stream := by
  have hdata := h.data
  refine ⟨⟨h.isOpen, h.read_length, h.write_length, ?_, h.data_le, h.offset_le⟩, ?_⟩
  · simp only
    omega
  · simp only [Instance.stream, Instance.unread, ← List.append_assoc]
    rw [show i.readBufferLength = n + (i.readBufferLength - n) by omega, List.take_add, List.drop_drop]
    simp

theorem ioReadLoop_ends (turns length : Nat) (h : Sound i) :
    Ends (ioReadLoop turns length i) (fun p => p.2.2.socket.outgoing = i.socket.outgoing ∧
      (p.1 = .success → Sound p.2.2 ∧ SameOutput i p.2.2 ∧ i.stream = p.2.1 ++ p.2.2.stream ∧
        p.2.1.length = length)) := by
  induction turns generalizing i length with
  | zero =>
    cases length with
    | zero => exact ⟨rfl, fun _ => ⟨h, .refl i, rfl, rfl⟩⟩
    | succ length => exact ends_blocked
  | succ turns ih =>
    cases length with
    | zero => exact ⟨rfl, fun _ => ⟨h, .refl i, rfl, rfl⟩⟩
    | succ length =>
      rw [ioReadLoop]
      apply (refill_ends h).bind
      rintro ⟨rc, j⟩ ⟨hout, hok⟩
      by_cases hrc : rc = .success
      · obtain ⟨hsound, hsame, hstream, hpos⟩ := hok hrc
        simp only at hsound hsame hstream hpos
        have hdata := hsound.data
        have hle := hsound.data_le
        have hlen := hsound.read_length
        obtain ⟨hnext, hsplit⟩ := take_unread hsound (Nat.min_le_right (length + 1) j.readBufferLength)
        simp only [hrc, ne_eq, not_true_eq_false, if_false]
        rw [readRange, if_pos (.inr (by omega)), ok_bind]
        apply (ih _ hnext).bind
        rintro ⟨rc', rest, k⟩ ⟨hout', hok'⟩
        refine ⟨hout'.trans hout, fun hs => ?_⟩
        obtain ⟨hsound', hsame', hstream', hlen'⟩ := hok' hs
        have hkept : SameOutput j k := ⟨hsame'.buffer, hsame'.offset, hsame'.outgoing, hsame'.count⟩
        refine ⟨hsound', hsame.trans hkept, ?_, ?_⟩
        · rw [← hstream, hsplit, hstream', List.append_assoc]
        · simp only [List.length_append, List.length_take, List.length_drop] at hlen' ⊢
          omega
      · simp only [hrc, ne_eq, not_false_eq_true, if_true]
        exact ⟨hout, fun hs => absurd hs hrc⟩

theorem safeReadLoop_ends (turns size : Nat) (h : Sound i) :
    Ends (safeReadLoop turns size i) (fun p => p.2.2.socket.outgoing = i.socket.outgoing ∧
      (p.1 = .success → Sound p.2.2 ∧ SameOutput i p.2.2 ∧ i.stream = p.2.1 ++ p.2.2.stream ∧
        p.2.1.length = size)) := by
  induction turns generalizing i size with
  | zero =>
    cases size with
    | zero => exact ⟨rfl, fun _ => ⟨h, .refl i, rfl, rfl⟩⟩
    | succ size => exact ends_blocked
  | succ turns ih =>
    cases size with
    | zero => exact ⟨rfl, fun _ => ⟨h, .refl i, rfl, rfl⟩⟩
    | succ size =>
      rw [safeReadLoop, ioRead, if_pos h.isOpen]
      apply (ioReadLoop_ends _ _ h).bind
      rintro ⟨rc, data, j⟩ ⟨hout, hok⟩
      by_cases hrc : rc = .success
      · obtain ⟨hsound, hsame, hstream, hlen⟩ := hok hrc
        simp only at hsound hsame hstream hlen
        simp only [hrc, ne_eq, not_true_eq_false, if_false]
        apply (ih _ hsound).bind
        rintro ⟨rc', rest, k⟩ ⟨hout', hok'⟩
        refine ⟨hout'.trans hout, fun hs => ?_⟩
        obtain ⟨hsound', hsame', hstream', hlen'⟩ := hok' hs
        refine ⟨hsound', hsame.trans hsame', ?_, ?_⟩
        · rw [hstream, hstream', List.append_assoc]
        · simp only [List.length_append] at hlen' ⊢
          omega
      · simp only [hrc, ne_eq, not_false_eq_true, if_true]
        exact ⟨hout, fun hs => absurd hs hrc⟩

theorem moveUnread_ends (h : Sound i) :
    Ends (moveUnread i) (fun j => Sound j ∧ SameOutput i j ∧ j.stream = i.stream ∧
      j.readPtr = 0 ∧ j.socket = i.socket) := by
  have hdata := h.data
  have hle := h.data_le
  have hread := h.read_length
  unfold moveUnread
  by_cases h0 : i.readPtr = 0
  · rw [if_neg (by simpa using h0)]
    exact ⟨h, .refl i, rfl, h0, rfl⟩
  · have hlen : i.unread.length = i.readBufferLength := by
      simp only [Instance.unread, List.length_take, List.length_drop]
      omega
    rw [if_pos h0, readRange, if_pos (.inr (by omega)), ok_bind, writeRange,
      if_pos (.inr (by rw [← Instance.unread, hlen]; omega)), ok_bind, ← Instance.unread]
    refine ⟨⟨h.isOpen, ?_, h.write_length, Nat.zero_add _, by simp only; omega, h.offset_le⟩,
      ⟨rfl, rfl, rfl, rfl⟩, ?_, rfl, rfl⟩
    · simp only [List.length_append, List.length_take, List.length_drop, hlen]
      omega
    · simp only [Instance.stream, Instance.unread, List.take_zero, List.nil_append, List.drop_zero]
      rw [← Instance.unread, List.take_left' hlen]

theorem repackInputBuffer_ends (h : Sound i) :
    Ends (repackInputBuffer i) (fun p => Sound p.2 ∧ SameOutput i p.2 ∧ p.2.stream = i.stream) := by
  unfold repackInputBuffer
  apply (moveUnread_ends h).bind
  rintro j ⟨hsound, hsame, hstream, hptr, hsocket⟩
  have hdata := hsound.data
  have hle := hsound.data_le
  have hread := hsound.read_length
  simp only
  split
  · exact ⟨hsound, hsame, hstream⟩
  · next hfull =>
    rw [← hstream]
    apply (recv_ends (by omega)).bind
    rintro ⟨res, -⟩ ⟨n, recvs, hroom, hlen, hres, rfl⟩
    have hkept : ∀ k, k = received j (j.readPtr + j.readDataLength) 0 recvs →
        Sound k ∧ SameOutput i k ∧ k.stream = j.stream := by
      rintro k rfl
      rw [received_zero]
      exact ⟨⟨hsound.isOpen, hread, hsound.write_length, hdata, hle, hsound.offset_le⟩,
        ⟨hsame.buffer, hsame.offset, hsame.outgoing, hsame.count⟩, rfl⟩
    rcases hres with rfl | ⟨rfl, e, rfl⟩
    · cases n with
      | zero => exact hkept _ rfl
      | succ n =>
        have hgrown : (received j (j.readPtr + j.readDataLength) (n + 1) recvs).readBuffer.length =
            j.readBuffer.length := length_received hlen (by omega)
        refine ⟨⟨hsound.isOpen, hgrown.trans hread, hsound.write_length, ?_, ?_, hsound.offset_le⟩,
          ⟨hsame.buffer, hsame.offset, hsame.outgoing, hsame.count⟩, ?_⟩
        · simp only [received]
          omega
        · simp only [received]
          omega
        · have hpiece : (j.readBuffer.take j.readDataLength ++ j.socket.incoming.take (n + 1)).length =
              j.readBufferLength + (n + 1) := by
            simp only [List.length_append, List.length_take]
            omega
          simp only [Instance.stream, Instance.unread, received, hptr, Nat.zero_add, List.drop_zero]
          rw [List.take_left' hpiece, List.append_assoc, List.take_append_drop,
            show j.readDataLength = j.readBufferLength by omega]
    · exact hkept _ rfl

/-- A write that succeeds hands over its whole piece and leaves an empty buffer, and one that
fails hands over a beginning of it. -/
structure Flushed (i : Instance) (piece : List Byte) (p : Bool × Instance) : Prop where
  sent : p.2.socket.outgoing <+: i.socket.outgoing ++ piece
  sound : p.1 = true → Sound p.2
  stream : p.1 = true → p.2.stream = i.stream
  offset : p.1 = true → p.2.writeBufferOffset = 0
  count : p.1 = true → p.2.responseCount = i.responseCount
  all : p.1 = true → p.2.socket.outgoing = i.socket.outgoing ++ piece

theorem Flushed.after {j : Instance} {data piece : List Byte} {p : Bool × Instance} (h : Flushed j piece p)
    (hout : j.socket.outgoing = i.socket.outgoing ++ data) (hstream : j.stream = i.stream)
    (hcount : j.responseCount = i.responseCount) : Flushed i (data ++ piece) p := by
  refine ⟨?_, h.sound, fun hp => (h.stream hp).trans hstream, h.offset, fun hp => (h.count hp).trans hcount,
    fun hp => ?_⟩
  · rw [← List.append_assoc, ← hout]
    exact h.sent
  · rw [← List.append_assoc, ← hout]
    exact h.all hp

theorem Flushed.of_same {j : Instance} {piece : List Byte} {p : Bool × Instance} (h : Flushed j piece p)
    (hsame : SameOutput i j) (hstream : j.stream = i.stream) : Flushed i piece p :=
  h.after (hsame.outgoing.trans (List.append_nil _).symm) hstream hsame.count

theorem flushed_failed {j : Instance} (piece : List Byte) (h : j.socket.outgoing = i.socket.outgoing) :
    Flushed i piece (false, j) :=
  ⟨h ▸ List.prefix_append _ _, by simp, by simp, by simp, by simp, by simp⟩

theorem flushed_done (h : Sound i) {writePtr : Nat} (hptr : writePtr = i.writeBufferOffset) :
    Flushed i (i.unsent.drop writePtr) (true, { i with writeBufferOffset := 0 }) := by
  have hnil : i.unsent.drop writePtr = [] := by
    apply List.drop_eq_nil_of_le
    rw [Instance.unsent, List.length_take]
    omega
  rw [hnil]
  exact ⟨by simp, fun _ => ⟨h.isOpen, h.read_length, h.write_length, h.data, h.data_le, Nat.zero_le _⟩,
    fun _ => rfl, fun _ => rfl, fun _ => rfl, fun _ => (List.append_nil _).symm⟩

theorem flushLoop_ends (turns writePtr length : Nat) (h : Sound i)
    (hlen : writePtr + length = i.writeBufferOffset) :
    Ends (flushLoop turns writePtr length i) (Flushed i (i.unsent.drop writePtr)) := by
  induction turns generalizing i writePtr length with
  | zero =>
    cases length with
    | zero => exact flushed_done h hlen
    | succ length => exact ends_blocked
  | succ turns ih =>
    have hwrite := h.write_length
    have hoff := h.offset_le
    cases length with
    | zero => exact flushed_done h hlen
    | succ length =>
      rw [flushLoop]
      apply (send_ends (by omega)).bind
      rintro ⟨res, -⟩ ⟨n, sends, hn, hres, rfl⟩
      rcases hres with rfl | ⟨rfl, e, rfl⟩
      · -- A part was sent, and the loop goes on after it.
        have hpiece : (i.writeBuffer.drop writePtr).take n ++ i.unsent.drop (writePtr + n) =
            i.unsent.drop writePtr := by
          have htake : (i.writeBuffer.drop writePtr).take n = (i.unsent.drop writePtr).take n := by
            rw [Instance.unsent, List.drop_take, List.take_take]
            congr 1
            omega
          rw [htake, ← List.drop_drop, List.take_append_drop]
        have hnext := @ih { i with socket := { i.socket with
            outgoing := i.socket.outgoing ++ (i.writeBuffer.drop writePtr).take n, sends := sends } }
          (writePtr + n) (length + 1 - n)
          ⟨h.isOpen, h.read_length, hwrite, h.data, h.data_le, hoff⟩ (by simp only; omega)
        rw [← hpiece]
        exact hnext.mono (fun p hp => hp.after rfl rfl rfl)
      · simp only [List.take_zero, List.append_nil]
        have hretry : ∀ j, Sound j → SameOutput i j → j.stream = i.stream →
            Ends (flushLoop turns writePtr (length + 1) j) (Flushed i (i.unsent.drop writePtr)) := by
          intro j hsound hsame hstream
          have hunsent : j.unsent = i.unsent := by rw [Instance.unsent, hsame.buffer, hsame.offset, Instance.unsent]
          rw [← hunsent]
          exact (ih writePtr (length + 1) hsound (by rw [hsame.offset]; exact hlen)).mono
            (fun p hp => hp.of_same hsame hstream)
        have hsound : Sound { i with socket := { i.socket with sends := sends } } :=
          ⟨h.isOpen, h.read_length, hwrite, h.data, h.data_le, hoff⟩
        cases e with
        | nobufs => exact hretry _ hsound ⟨rfl, rfl, rfl, rfl⟩ rfl
        | again =>
          apply (repackInputBuffer_ends hsound).bind
          rintro ⟨grown, j⟩ ⟨hsound', hrepack, hstream⟩
          have hsame : SameOutput i j := ⟨hrepack.buffer, hrepack.offset, hrepack.outgoing, hrepack.count⟩
          cases grown with
          | true => exact hretry j hsound' hsame hstream
          | false =>
            apply (pollLoop_ends 4).bind
            rintro ⟨rc, k⟩ ⟨hout, hok⟩
            by_cases hrc : rc = .success
            · obtain ⟨polls, rfl⟩ := hok (.inl hrc)
              simp only [hrc, if_true]
              exact hretry _ ⟨hsound'.isOpen, hsound'.read_length, hsound'.write_length, hsound'.data,
                hsound'.data_le, hsound'.offset_le⟩ ⟨hsame.buffer, hsame.offset, hsame.outgoing, hsame.count⟩
                hstream
            · simp only [hrc, if_false]
              split
              · exact flushed_failed _ (hout.trans hsame.outgoing)
              · exact flushed_failed _ (hout.trans hsame.outgoing)
        | _ => exact flushed_failed _ rfl

theorem ioFlush_ends (h : Sound i) : Ends (ioFlush i) (Flushed i i.unsent) :=
  flushLoop_ends _ 0 _ h (Nat.zero_add _)

/-- A write takes its bytes, and on failure a beginning of what was taken has been sent. -/
structure Taken (i : Instance) (bytes : List Byte) (p : Bool × Instance) : Prop where
  sent : p.2.socket.outgoing <+: i.written ++ bytes
  sound : p.1 = true → Sound p.2
  stream : p.1 = true → p.2.stream = i.stream
  count : p.1 = true → p.2.responseCount = i.responseCount
  all : p.1 = true → p.2.written = i.written ++ bytes

theorem taken_nil (h : Sound i) : Taken i [] (true, i) :=
  ⟨by simp [Instance.written], fun _ => h, fun _ => rfl, fun _ => rfl,
    fun _ => (List.append_nil _).symm⟩

theorem Taken.trans {j : Instance} {bytes rest : List Byte} {p : Bool × Instance} (h : Taken i bytes (true, j))
    (h' : Taken j rest p) : Taken i (bytes ++ rest) p := by
  have hall := h.all rfl
  simp only at hall
  refine ⟨?_, h'.sound, fun hp => (h'.stream hp).trans (h.stream rfl), fun hp => (h'.count hp).trans (h.count rfl),
    fun hp => ?_⟩
  · rw [← List.append_assoc, ← hall]
    exact h'.sent
  · rw [← List.append_assoc, ← hall]
    exact h'.all hp

/-- What a failed write leaves is part of what longer writes would. -/
theorem Taken.failed {j : Instance} {bytes : List Byte} (h : Taken i bytes (false, j)) (rest : List Byte) :
    Taken i (bytes ++ rest) (false, j) := by
  refine ⟨?_, by simp, by simp, by simp, by simp⟩
  rw [← List.append_assoc]
  exact h.sent.trans (List.prefix_append _ _)

theorem Flushed.taken {p : Bool × Instance} (h : Flushed i i.unsent p) : Taken i [] p := by
  refine ⟨?_, h.sound, h.stream, h.count, fun hp => ?_⟩
  · rw [List.append_nil]
    exact h.sent
  · have hnil : p.2.unsent = [] := by rw [Instance.unsent, h.offset hp, List.take_zero]
    rw [Instance.written, h.all hp, hnil]
    rfl

/-- Bytes that fit go to the end of the write buffer. -/
theorem taken_copy (h : Sound i) {bytes : List Byte} (hroom : i.writeBufferOffset + bytes.length ≤ maxBuffer) :
    Taken i bytes (true, { i with
      writeBuffer := i.writeBuffer.take i.writeBufferOffset ++ bytes ++
        i.writeBuffer.drop (i.writeBufferOffset + bytes.length)
      writeBufferOffset := i.writeBufferOffset + bytes.length }) := by
  have hwrite := h.write_length
  have hlen : (i.writeBuffer.take i.writeBufferOffset ++ bytes).length = i.writeBufferOffset + bytes.length := by
    simp only [List.length_append, List.length_take]
    omega
  refine ⟨?_, fun _ => ⟨h.isOpen, h.read_length, ?_, h.data, h.data_le, hroom⟩, fun _ => rfl, fun _ => rfl,
    fun _ => ?_⟩
  · simp [Instance.written, List.append_assoc]
  · simp only [List.length_append, List.length_take, List.length_drop]
    omega
  · simp only [Instance.written, Instance.unsent]
    rw [List.take_left' hlen, List.append_assoc]

theorem flushWhenFull_ends (h : Sound i) : Ends (flushWhenFull i) (Taken i []) := by
  unfold flushWhenFull
  by_cases hfull : i.writeBufferOffset = maxBuffer
  · rw [if_pos hfull]
    exact (ioFlush_ends h).mono (fun p hp => hp.taken)
  · rw [if_neg hfull]
    exact taken_nil h

theorem ioWriteLoop_ends (turns : Nat) (bytes : List Byte) (h : Sound i) :
    Ends (ioWriteLoop turns bytes i) (Taken i bytes) := by
  induction turns generalizing i bytes with
  | zero =>
    cases bytes with
    | nil => exact taken_nil h
    | cons byte bytes => exact ends_blocked
  | succ turns ih =>
    cases bytes with
    | nil => exact taken_nil h
    | cons byte bytes =>
      have hwrite := h.write_length
      have hoff := h.offset_le
      rw [ioWriteLoop]
      simp only
      generalize hn : min (maxBuffer - i.writeBufferOffset) (bytes.length + 1) = n
      have hlen : ((byte :: bytes).take n).length = n := by
        simp only [List.length_take, List.length_cons]
        omega
      have hcopy := taken_copy h (show i.writeBufferOffset + ((byte :: bytes).take n).length ≤ maxBuffer by omega)
      rw [writeRange, if_pos (.inr (by omega)), ok_bind]
      rw [hlen] at hcopy ⊢
      apply (flushWhenFull_ends (hcopy.sound rfl)).bind
      rintro ⟨sent, j⟩ hsent
      have hstep := hcopy.trans hsent
      rw [List.append_nil] at hstep
      cases sent with
      | true =>
        apply (ih _ (hstep.sound rfl)).mono
        intro p hp
        have := hstep.trans hp
        rwa [List.take_append_drop] at this
      | false =>
        have := hstep.failed ((byte :: bytes).drop n)
        rwa [List.take_append_drop] at this

theorem ioWrite_ends (bytes : List Byte) (withFlush : Bool) (h : Sound i) :
    Ends (ioWrite bytes withFlush i) (fun p => Taken i bytes p ∧
      (p.1 = true → withFlush = true → p.2.unsent = [])) := by
  unfold ioWrite
  apply (ioWriteLoop_ends _ bytes h).bind
  rintro ⟨written, j⟩ hwritten
  cases written with
  | false => exact ⟨hwritten, by simp⟩
  | true =>
    cases withFlush with
    | false => exact ⟨hwritten, by simp⟩
    | true =>
      apply (ioFlush_ends (hwritten.sound rfl)).mono
      intro p hp
      have := hwritten.trans hp.taken
      rw [List.append_nil] at this
      refine ⟨this, fun hs _ => ?_⟩
      rw [Instance.unsent, hp.offset hs, List.take_zero]

theorem ioWritevLoop_ends (vector : List (List Byte)) (h : Sound i) :
    Ends (ioWritevLoop vector i) (Taken i vector.flatten) := by
  induction vector generalizing i with
  | nil => exact taken_nil h
  | cons piece vector ih =>
    have hpiece : Ends (writePiece piece i) (Taken i piece) := by
      unfold writePiece
      by_cases hp : piece = []
      · rw [if_pos hp, hp]
        exact taken_nil h
      · rw [if_neg hp]
        exact (ioWrite_ends piece false h).mono (fun p hp => hp.1)
    rw [ioWritevLoop, List.flatten_cons]
    apply hpiece.bind
    rintro ⟨written, j⟩ hwritten
    cases written with
    | true => exact (ih (hwritten.sound rfl)).mono (fun p hp => hwritten.trans hp)
    | false => exact hwritten.failed vector.flatten

theorem ioWritev_ends (vector : List (List Byte)) (withFlush : Bool) (h : Sound i) :
    Ends (ioWritev vector withFlush i) (fun p => Taken i vector.flatten p ∧
      (p.1 = true → withFlush = true → p.2.unsent = [])) := by
  unfold ioWritev
  apply (ioWritevLoop_ends vector h).bind
  rintro ⟨written, j⟩ hwritten
  cases written with
  | false => exact ⟨hwritten, by simp⟩
  | true =>
    cases withFlush with
    | false => exact ⟨hwritten, by simp⟩
    | true =>
      apply (ioWrite_ends [] true (hwritten.sound rfl)).mono
      rintro p ⟨htaken, hnil⟩
      have := hwritten.trans htaken
      rw [List.append_nil] at this
      exact ⟨this, hnil⟩

/-- The calls on a connection. -/
inductive Call
  | read (size : Nat)
  | write (vector : List (List Byte)) (withFlush : Bool)

/-- Whether a call succeeds, and the bytes that it reads. -/
def Call.run : Call → Instance → Except Fault (Bool × List Byte × Instance)
  | .read size, i => do
    let (rc, data, i) ← safeRead size i
    return if rc = .success then (true, data, i) else (false, [], i)
  | .write vector withFlush, i => do
    let (written, i) ← ioWritev vector withFlush i
    return (written, [], i)

/-- The bytes that a call is to write. -/
def Call.bytes : Call → List Byte
  | .read _ => []
  | .write vector _ => vector.flatten

/-- The number of bytes that a call is to read. -/
def Call.size : Call → Nat
  | .read size => size
  | .write _ _ => 0

/-- Calls one after the other, up to the first that fails. -/
def runCalls : List Call → Instance → Except Fault (Bool × List Byte × Instance)
  | [], i => .ok (true, [], i)
  | call :: calls, i => do
    let (done, data, i) ← call.run i
    if done then
      let (done, rest, i) ← runCalls calls i
      return (done, data ++ rest, i)
    else return (false, [], i)

/-- What one call, or a run of calls, does to the two streams. -/
structure Fifo (i : Instance) (bytes : List Byte) (size : Nat) (p : Bool × List Byte × Instance) : Prop where
  read : p.2.1 <+: i.stream
  sent : p.2.2.socket.outgoing <+: i.written ++ bytes
  sound : p.1 = true → Sound p.2.2
  stream : p.1 = true → i.stream = p.2.1 ++ p.2.2.stream
  length : p.1 = true → p.2.1.length = size
  all : p.1 = true → p.2.2.written = i.written ++ bytes

theorem Call.run_ends (call : Call) (h : Sound i) : Ends (call.run i) (Fifo i call.bytes call.size) := by
  cases call with
  | read size =>
    apply (safeReadLoop_ends size size h).bind
    rintro ⟨rc, data, j⟩ ⟨hout, hok⟩
    by_cases hrc : rc = .success
    · obtain ⟨hsound, hsame, hstream, hlen⟩ := hok hrc
      simp only at hsound hsame hstream hlen
      simp only [hrc, if_true]
      have hwritten : j.written = i.written ++ [] := by rw [hsame.written, List.append_nil]
      refine ⟨hstream ▸ List.prefix_append _ _, ?_, fun _ => hsound, fun _ => hstream, fun _ => hlen,
        fun _ => hwritten⟩
      rw [Call.bytes, ← hwritten]
      exact List.prefix_append _ _
    · simp only [hrc, if_false]
      refine ⟨List.nil_prefix, ?_, by simp, by simp, by simp, by simp⟩
      simp only at hout ⊢
      rw [hout, Instance.written, List.append_assoc]
      exact List.prefix_append _ _
  | write vector withFlush =>
    apply (ioWritev_ends vector withFlush h).bind
    rintro ⟨written, j⟩ ⟨htaken, -⟩
    exact ⟨List.nil_prefix, htaken.sent, htaken.sound, fun hp => (htaken.stream hp).symm, fun _ => rfl, htaken.all⟩

/-- A connection that has just been made. -/
def connected (socket : Socket) : Instance where
  isOpen := true
  readBuffer := List.replicate maxBuffer 0
  readPtr := 0
  readDataLength := 0
  readBufferLength := 0
  writeBuffer := List.replicate maxBuffer 0
  writeBufferOffset := 0
  responseCount := 0
  socket := socket

theorem sound_connected (socket : Socket) : Sound (connected socket) :=
  ⟨rfl, List.length_replicate, List.length_replicate, rfl, Nat.zero_le _, Nat.zero_le _⟩

/-- A peer that sends three bytes and takes what it is sent in pieces. -/
@[irreducible] def sampleInstance : Instance :=
  connected ⟨[1, 0, 1], [], [.ok 1, .ok 1], [.ok 1, .error .nobufs, .ok 2], []⟩

theorem sound_sampleInstance : Sound sampleInstance := by
  rw [sampleInstance]
  exact sound_connected _

end OptLrc.Streams
