import OptLrc.Readers
import OptLrc.Streams

namespace OptLrc.Delivery

open OptLrc.Galois OptLrc.Memory OptLrc.Sockets OptLrc.Streams

/-- A schedule that brings `need` bytes or more: the socket may be interrupted, it may have to be
waited for, and it may bring the bytes in pieces of any sizes. -/
structure Live (need : Nat) (s : Socket) : Prop where
  recvs : ∀ res ∈ s.recvs, res = .error .interrupted ∨ res = .error .again ∨ ∃ n, res = .ok (n + 1)
  enough : need ≤ s.recvs.countP (fun res => res.isOk)
  polls : ∀ polled ∈ s.polls, polled = .ready
  waits : s.recvs.length ≤ s.polls.length

theorem Live.mono {need need' : Nat} {s : Socket} (h : Live need s) (hle : need' ≤ need) : Live need' s :=
  ⟨h.recvs, hle.trans h.enough, h.polls, h.waits⟩

variable {i : Instance}

/-- A `recv` that moves nothing leaves a schedule for as many bytes. -/
theorem Live.skip {need : Nat} {s : Socket} {e : Errno} {recvs : List (Except Errno Nat)} {polls : List Polled}
    (h : Live need s) (hr : s.recvs = .error e :: recvs) (hpolls : ∀ polled ∈ polls, polled = .ready)
    (hwaits : recvs.length ≤ polls.length) : Live need { s with recvs := recvs, polls := polls } := by
  obtain ⟨hrecvs, henough, -, -⟩ := h
  rw [hr] at hrecvs henough
  refine ⟨fun res hres => hrecvs res (List.mem_cons_of_mem _ hres), ?_, hpolls, hwaits⟩
  simpa [Except.isOk, Except.toBool] using henough

theorem ioFillLoop_live {need turns : Nat} (hlive : Live need i.socket) (hread : i.readBuffer.length = maxBuffer)
    (hneed : 0 < need) (hin : need ≤ i.socket.incoming.length) (hturns : i.socket.recvs.length < turns) :
    ∃ j, ioFillLoop turns i = .ok (.success, j) ∧ Live (need - j.readBufferLength) j.socket := by
  induction turns generalizing i with
  | zero => omega
  | succ turns ih =>
    have hrecvs := hlive.recvs
    have henough := hlive.enough
    have hpolls := hlive.polls
    have hwaits := hlive.waits
    rw [ioFillLoop, recv, if_neg (by omega)]
    cases hr : i.socket.recvs with
    | nil =>
      rw [hr] at henough
      simp at henough
      omega
    | cons res recvs =>
      rw [hr] at hrecvs henough hwaits hturns
      simp only [List.length_cons] at hwaits hturns
      rcases hrecvs res List.mem_cons_self with rfl | rfl | ⟨n, rfl⟩
      · exact @ih { i with socket := { i.socket with recvs := recvs } }
          (hlive.skip hr hpolls (by omega)) hread hin (by simp only; omega)
      · cases hp : i.socket.polls with
        | nil =>
          rw [hp] at hwaits
          simp at hwaits
        | cons polled polls =>
          rw [hp] at hpolls hwaits
          obtain rfl := hpolls polled List.mem_cons_self
          have hnext := @ih { i with socket := { i.socket with recvs := recvs, polls := polls } }
            (hlive.skip hr (fun p hp => hpolls p (List.mem_cons_of_mem _ hp)) (by simp at hwaits; omega)) hread hin
            (by simp only; omega)
          simpa only [ok_bind, ioWait, pollLoop, hp, if_true] using hnext
      · have hne : i.socket.incoming ≠ [] := by
          intro h0
          rw [h0] at hin
          simp at hin
          omega
        have hlen : (i.socket.incoming.take (min (n + 1) maxBuffer)).length =
            min (min (n + 1) maxBuffer) i.socket.incoming.length := List.length_take
        have hmax : 0 < maxBuffer := Nat.zero_lt_succ 8195
        have hpos : 0 < min (min (n + 1) maxBuffer) i.socket.incoming.length :=
          lt_min (lt_min (Nat.succ_pos n) hmax) (List.length_pos_of_ne_nil hne)
        have hfit : 0 + (i.socket.incoming.take (min (n + 1) maxBuffer)).length ≤ i.readBuffer.length := by
          rw [Nat.zero_add, hlen, hread]
          exact (Nat.min_le_left _ _).trans (Nat.min_le_right _ _)
        rw [← hlen] at hpos
        simp only [hne, and_false, if_false]
        rw [writeRange, if_pos (.inr hfit)]
        simp only [ok_bind, pure_eq_ok]
        generalize (i.socket.incoming.take (min (n + 1) maxBuffer)).length = m at hpos
        cases m with
        | zero => exact absurd hpos (lt_irrefl 0)
        | succ m =>
          refine ⟨_, rfl, fun res hres => hrecvs res (List.mem_cons_of_mem _ hres), ?_, hpolls, by simp only; omega⟩
          simp only [Except.isOk, Except.toBool, List.countP_cons, if_true] at henough ⊢
          omega

/-- A connection that can still deliver `need` bytes. -/
structure Ready (need : Nat) (i : Instance) : Prop where
  sound : Sound i
  enough : need ≤ i.stream.length
  live : Live (need - i.readBufferLength) i.socket

theorem length_unread (h : Sound i) : i.unread.length = i.readBufferLength := by
  have hdata := h.data
  have hle := h.data_le
  have hread := h.read_length
  simp only [Instance.unread, List.length_take, List.length_drop]
  omega

theorem refill_ready {need : Nat} (h : Ready need i) (hneed : 0 < need) :
    ∃ j, refill i = .ok (.success, j) ∧ Ready need j ∧ j.stream = i.stream ∧ SameOutput i j ∧
      0 < j.readBufferLength := by
  have hok : ∃ j, refill i = .ok (.success, j) ∧ Live (need - j.readBufferLength) j.socket := by
    unfold refill
    by_cases h0 : i.readBufferLength = 0
    · have hlen := length_unread h.sound
      have henough := h.enough
      have hlive := h.live
      rw [Instance.stream, List.length_append] at henough
      rw [h0, Nat.sub_zero] at hlive
      rw [if_pos h0]
      exact ioFillLoop_live hlive h.sound.read_length hneed (by omega) (Nat.lt_succ_self _)
    · rw [if_neg h0]
      exact ⟨i, rfl, h.live⟩
  obtain ⟨j, hj, hlive⟩ := hok
  have hends := refill_ends h.sound
  rw [hj] at hends
  obtain ⟨hsound, hsame, hstream, hpos⟩ := hends.2 rfl
  exact ⟨j, hj, ⟨hsound, hstream ▸ h.enough, hlive⟩, hstream, hsame, hpos⟩

theorem ioReadLoop_ready {need turns length : Nat} (h : Ready need i) (hlen : length ≤ need)
    (hturns : length ≤ turns) :
    ∃ data j, ioReadLoop turns length i = .ok (.success, data, j) ∧ Live (need - length - j.readBufferLength) j.socket := by
  induction turns generalizing i need length with
  | zero =>
    obtain rfl : length = 0 := by omega
    exact ⟨[], i, rfl, h.live⟩
  | succ turns ih =>
    cases length with
    | zero => exact ⟨[], i, rfl, h.live⟩
    | succ length =>
      obtain ⟨j, hj, hready, hstream, -, hpos⟩ := refill_ready h (by omega)
      have hdata := hready.sound.data
      have hle := hready.sound.data_le
      have hread := hready.sound.read_length
      have henough := hready.enough
      have hlive := hready.live
      generalize hn : min (length + 1) j.readBufferLength = n
      obtain ⟨hsound, hsplit⟩ := take_unread hready.sound (show n ≤ j.readBufferLength by omega)
      have hlength := congrArg List.length hsplit
      rw [List.length_append, List.length_take, List.length_drop] at hlength
      obtain ⟨rest, k, hk, hkl⟩ := @ih { j with readPtr := j.readPtr + n, readBufferLength := j.readBufferLength - n }
        (need - n) (length + 1 - n)
        ⟨hsound, by omega, by simpa only [show need - n - (j.readBufferLength - n) = need - j.readBufferLength by omega]
          using hlive⟩ (by omega) (by omega)
      refine ⟨(j.readBuffer.drop j.readPtr).take n ++ rest, k, ?_, by rwa [show need - (length + 1) = need - n - (length + 1 - n) by omega]⟩
      rw [ioReadLoop, hj]
      simp only [ok_bind, ne_eq, not_true_eq_false, if_false, hn]
      rw [readRange, if_pos (.inr (by omega))]
      simp only [ok_bind, hk]
      rfl

/-- A piece of what a connection can still deliver is read, whatever the schedule. -/
theorem safeRead_ready {need size : Nat} (h : Ready need i) (hsize : size ≤ need) :
    ∃ j, safeRead size i = .ok (.success, i.stream.take size, j) ∧ j.stream = i.stream.drop size ∧
      Ready (need - size) j ∧ SameOutput i j := by
  have hok : ∃ data j, safeRead size i = .ok (.success, data, j) ∧
      Live (need - size - j.readBufferLength) j.socket := by
    cases size with
    | zero => exact ⟨[], i, rfl, h.live⟩
    | succ size =>
      obtain ⟨data, j, hj, hlive⟩ := ioReadLoop_ready h hsize le_rfl
      have hends := ioReadLoop_ends (size + 1) (size + 1) h.sound
      rw [hj] at hends
      obtain ⟨-, -, -, hlen⟩ := hends.2 rfl
      simp only at hlen
      refine ⟨data, j, ?_, hlive⟩
      rw [safeRead, safeReadLoop, ioRead, if_pos h.sound.isOpen, hj]
      simp only [ok_bind, ne_eq, not_true_eq_false, if_false, hlen, Nat.sub_self]
      cases size <;> simp [safeReadLoop]
  obtain ⟨data, j, hj, hlive⟩ := hok
  have hends := safeReadLoop_ends size size h.sound
  rw [← safeRead, hj] at hends
  obtain ⟨hsound, hsame, hstream, hlen⟩ := hends.2 rfl
  simp only at hsound hsame hstream hlen
  have henough := h.enough
  refine ⟨j, ?_, ?_, ⟨hsound, ?_, hlive⟩, hsame⟩
  · rw [hj, hstream, List.take_left' hlen]
  · rw [hstream, List.drop_left' hlen]
  · rw [hstream, List.length_append] at henough
    omega

end OptLrc.Delivery
