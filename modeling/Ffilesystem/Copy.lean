import Ffilesystem.System

/-!
# Moving the bytes of a file in the POSIX C backend

Both copy loops move data from one open regular file to another with system
calls that may move fewer bytes than asked, and repeat a call that a signal
interrupted. The results of the calls come from a schedule; after its end every
call fails, so each run of the loops that ends at all is a run for some
schedule.

The one invariant of all loops is that the destination holds a prefix of the
source that reaches at least up to the write offset (`Tracks`). It survives the
restart from offset 0, where the prefix is longer than what the second method
has written so far.
-/

namespace Ffilesystem

/-- What the system answers to a transfer call: the count it is willing to move
at most, or an error number. -/
inductive Outcome
  | count (n : Nat)
  | fail (e : Errno)
  deriving DecidableEq, Repr

/-- A call repeated while it is interrupted: the count, or `none` for `-1`. A
call that succeeds leaves `errno` as it is. -/
def retry : List Outcome → Option Errno → Option Nat × Option Errno × List Outcome
  | [], _ => (none, some .io, [])
  | .count n :: schedule, errno => (some n, errno, schedule)
  | .fail e :: schedule, _ =>
      if e = .intr then retry schedule (some e) else (none, some e, schedule)

/-- The content of a file after `bytes` were written at `pos`; a gap reads as zeros. -/
def overwrite (content : List UInt8) (pos : Nat) (bytes : List UInt8) : List UInt8 :=
  if bytes = [] then content
  else content.take pos ++ List.replicate (pos - content.length) 0 ++ bytes ++
    content.drop (pos + bytes.length)

/-- Two open files with their offsets, `errno`, and the answers still to come. -/
structure Transfer where
  source : List UInt8
  dest : List UInt8
  rpos : Nat
  wpos : Nat
  errno : Option Errno
  schedule : List Outcome

namespace Transfer

def await (t : Transfer) : Option Nat × Transfer :=
  let answer := retry t.schedule t.errno
  (answer.1, { t with errno := answer.2.1, schedule := answer.2.2 })

def read (t : Transfer) (request : Nat) : Option (List UInt8) × Transfer :=
  match t.await with
  | (none, t) => (none, t)
  | (some n, t) =>
      let bytes := Scan.substr t.source t.rpos (min n request)
      (some bytes, { t with rpos := t.rpos + bytes.length })

def write (t : Transfer) (bytes : List UInt8) : Option Nat × Transfer :=
  match t.await with
  | (none, t) => (none, t)
  | (some n, t) =>
      let chunk := bytes.take n
      (some chunk.length,
        { t with dest := overwrite t.dest t.wpos chunk, wpos := t.wpos + chunk.length })

def copyFileRange (t : Transfer) (len : Nat) : Option Nat × Transfer :=
  match t.await with
  | (none, t) => (none, t)
  | (some n, t) =>
      let bytes := Scan.substr t.source t.rpos (min n len)
      (some bytes.length,
        { t with
          dest := overwrite t.dest t.wpos bytes
          rpos := t.rpos + bytes.length
          wpos := t.wpos + bytes.length })

/-- `lseek` to 0 on both files. -/
def rewind (t : Transfer) : Transfer := { t with rpos := 0, wpos := 0 }

end Transfer

/-- The constant of `fs_copy_loop`. -/
def bufferSize : Nat := 16384

/-- The inner loop of `fs_copy_loop`, on the part of the buffer still unwritten. -/
def fsCopyWrite (bytes : List UInt8) (t : Transfer) : Bool × Transfer :=
  if bytes = [] then (true, t)
  else
    match t.write bytes with
    | (none, t) => (false, t)
    | (some 0, t) => (false, t)
    | (some (w + 1), t) => fsCopyWrite (bytes.drop (w + 1)) t
termination_by bytes.length
decreasing_by
  have := List.length_pos_iff.mpr ‹_›
  simp only [List.length_drop]
  omega

def fsCopyLoop (r : Nat) (t : Transfer) : Bool × Transfer :=
  if r = 0 then (true, t)
  else
    match t.read (min r bufferSize) with
    | (none, t) => (false, t)
    | (some [], t) => (false, t)
    | (some (b :: bytes), t) =>
        match fsCopyWrite (b :: bytes) t with
        | (false, t) => (false, t)
        | (true, t) => fsCopyLoop (r - (bytes.length + 1)) t
termination_by r
decreasing_by omega

def fsCopyRange (len : Nat) (t : Transfer) : Bool × Transfer :=
  if len = 0 then (true, t)
  else
    match t.copyFileRange len with
    | (none, t) => (false, t)
    | (some 0, t) => (false, t)
    | (some (ret + 1), t) => fsCopyRange (len - (ret + 1)) t
termination_by len
decreasing_by omega

/-- The part of `fs_copy_file_range_or_loop` between `ftruncate` and the closing
of the files. -/
def fsCopyData (haveCopyFileRange : Bool) (len : Nat) (t : Transfer) : Bool × Transfer :=
  let t := { t with errno := none }
  if haveCopyFileRange then
    match fsCopyRange len t with
    | (true, t) => (true, t)
    | (false, t) =>
        if t.errno = some .nosys ∨ t.errno = some .opnotsupp then fsCopyLoop len t.rewind
        else (false, t)
  else fsCopyLoop len t

section Tracking

/-- A prefix that is extended, or rewritten, in place is a prefix again. -/
theorem overwrite_take {source bytes : List UInt8} {pos m : Nat} (hpos : pos ≤ m)
    (hm : m ≤ source.length) (hbytes : bytes <+: source.drop pos) :
    overwrite (source.take m) pos bytes = source.take (max m (pos + bytes.length)) := by
  rw [overwrite]
  split
  · rename_i hnil
    rw [hnil, List.length_nil, Nat.add_zero, Nat.max_eq_left hpos]
  · have hgap : pos - (source.take m).length = 0 := by
      rw [List.length_take]
      omega
    have hfront : source.take pos ++ bytes = source.take (pos + bytes.length) := by
      rw [List.take_add, ← List.prefix_iff_eq_take.mp hbytes]
    rw [hgap, List.replicate_zero, List.append_nil, List.take_take, Nat.min_eq_left hpos, hfront,
      List.drop_take]
    cases Nat.le_total m (pos + bytes.length) with
    | inl hle => rw [Nat.max_eq_right hle, Nat.sub_eq_zero_of_le hle, List.take_zero,
        List.append_nil]
    | inr hge => rw [Nat.max_eq_left hge, ← List.take_add, Nat.add_sub_cancel' hge]

/-- The destination holds a prefix of the source, at least up to the write offset. -/
structure Tracks (source : List UInt8) (t : Transfer) : Prop where
  source_eq : t.source = source
  dest_eq : ∃ m, t.wpos ≤ m ∧ m ≤ source.length ∧ t.dest = source.take m

variable {source : List UInt8}

/-- Waiting for an answer moves no bytes and no offset. -/
theorem Tracks.await {t : Transfer} (h : Tracks source t) :
    ∃ answer t', t.await = (answer, t') ∧ Tracks source t' ∧
      t'.rpos = t.rpos ∧ t'.wpos = t.wpos :=
  ⟨_, _, rfl, ⟨h.source_eq, h.dest_eq⟩, rfl, rfl⟩

theorem Tracks.rewind {t : Transfer} (h : Tracks source t) : Tracks source t.rewind := by
  obtain ⟨m, -, hm, hdest⟩ := h.dest_eq
  exact ⟨h.source_eq, m, Nat.zero_le m, hm, hdest⟩

/-- The step that every transfer makes: bytes of the source go to their place. -/
theorem Tracks.overwrite {t : Transfer} (h : Tracks source t) {bytes : List UInt8}
    (hbytes : bytes <+: source.drop t.wpos) (rpos : Nat) :
    Tracks source
      { t with
        dest := overwrite t.dest t.wpos bytes
        rpos := rpos
        wpos := t.wpos + bytes.length } := by
  obtain ⟨m, hpos, hm, hdest⟩ := h.dest_eq
  refine ⟨h.source_eq, max m (t.wpos + bytes.length), Nat.le_max_right _ _, ?_, ?_⟩
  · have hlen := hbytes.length_le
    rw [List.length_drop] at hlen
    omega
  · rw [hdest]
    exact overwrite_take hpos hm hbytes

/-- A transfer that has written all bytes of the source has copied it. -/
theorem Tracks.dest_eq_source {t : Transfer} (h : Tracks source t)
    (hpos : t.wpos = source.length) : t.dest = source := by
  obtain ⟨m, hle, hm, hdest⟩ := h.dest_eq
  rw [hdest, List.take_of_length_le (by omega)]

/-- Step lemma for `read`: it moves the read offset over the bytes it delivers. -/
theorem Tracks.read {t : Transfer} (h : Tracks source t) (request : Nat) :
    Tracks source (t.read request).2 ∧ (t.read request).2.wpos = t.wpos ∧
      ∀ bytes, (t.read request).1 = some bytes →
        bytes <+: source.drop t.rpos ∧ bytes.length ≤ request ∧
          (t.read request).2.rpos = t.rpos + bytes.length := by
  rw [Transfer.read]
  obtain ⟨answer, t', hawait, ht', hrpos, hwpos⟩ := h.await
  rw [hawait]
  cases answer with
  | none => exact ⟨ht', hwpos, fun bytes hb => nomatch hb⟩
  | some n =>
      refine ⟨⟨ht'.source_eq, ht'.dest_eq⟩, hwpos, ?_⟩
      intro bytes hb
      obtain rfl := Option.some.inj hb
      refine ⟨?_, ?_, ?_⟩
      · rw [ht'.source_eq, hrpos]
        exact List.take_prefix _ _
      · rw [Scan.substr, List.length_take]
        omega
      · rw [← hrpos]

/-- Step lemma for `write`. -/
theorem Tracks.write {t : Transfer} (h : Tracks source t) {bytes : List UInt8}
    (hbytes : bytes <+: source.drop t.wpos) :
    Tracks source (t.write bytes).2 ∧ (t.write bytes).2.rpos = t.rpos ∧
      ∀ w, (t.write bytes).1 = some w →
        w ≤ bytes.length ∧ (t.write bytes).2.wpos = t.wpos + w := by
  rw [Transfer.write]
  obtain ⟨answer, t', hawait, ht', hrpos, hwpos⟩ := h.await
  rw [hawait]
  cases answer with
  | none => exact ⟨ht', hrpos, fun w hw => nomatch hw⟩
  | some n =>
      have hchunk : bytes.take n <+: source.drop t'.wpos :=
        hwpos ▸ (List.take_prefix n bytes).trans hbytes
      refine ⟨ht'.overwrite hchunk t'.rpos, hrpos, ?_⟩
      intro w hw
      obtain rfl := Option.some.inj hw
      refine ⟨?_, ?_⟩
      · rw [List.length_take]
        exact Nat.min_le_right _ _
      · rw [← hwpos]

/-- Step lemma for `copy_file_range`, which moves both offsets alike. -/
theorem Tracks.copyFileRange {t : Transfer} (h : Tracks source t) (hpos : t.rpos = t.wpos)
    (len : Nat) :
    Tracks source (t.copyFileRange len).2 ∧
      ∀ ret, (t.copyFileRange len).1 = some ret →
        ret ≤ len ∧ (t.copyFileRange len).2.rpos = (t.copyFileRange len).2.wpos ∧
          (t.copyFileRange len).2.wpos = t.wpos + ret := by
  rw [Transfer.copyFileRange]
  obtain ⟨answer, t', hawait, ht', hrpos, hwpos⟩ := h.await
  rw [hawait]
  cases answer with
  | none => exact ⟨ht', fun ret hret => nomatch hret⟩
  | some n =>
      have hbytes : Scan.substr t'.source t'.rpos (min n len) <+: source.drop t'.wpos := by
        rw [ht'.source_eq, show t'.rpos = t'.wpos by omega]
        exact List.take_prefix _ _
      refine ⟨ht'.overwrite hbytes _, ?_⟩
      intro ret hret
      obtain rfl := Option.some.inj hret
      refine ⟨?_, ?_, ?_⟩
      · rw [Scan.substr, List.length_take]
        omega
      · show t'.rpos + _ = t'.wpos + _
        rw [hrpos, hwpos, hpos]
      · rw [← hwpos]

end Tracking

section Loops

variable {source : List UInt8}

theorem fsCopyWrite_spec (bytes : List UInt8) (t : Transfer) (h : Tracks source t)
    (hbytes : bytes <+: source.drop t.wpos) :
    Tracks source (fsCopyWrite bytes t).2 ∧ (fsCopyWrite bytes t).2.rpos = t.rpos ∧
      ((fsCopyWrite bytes t).1 = true → (fsCopyWrite bytes t).2.wpos = t.wpos + bytes.length) := by
  fun_induction fsCopyWrite bytes t with
  | case1 t => exact ⟨h, rfl, fun _ => rfl⟩
  | case2 bytes t hne t' hwrite =>
      obtain ⟨htracks, hrpos, -⟩ := h.write hbytes
      rw [hwrite] at htracks hrpos
      exact ⟨htracks, hrpos, fun hok => nomatch hok⟩
  | case3 bytes t hne t' hwrite =>
      obtain ⟨htracks, hrpos, -⟩ := h.write hbytes
      rw [hwrite] at htracks hrpos
      exact ⟨htracks, hrpos, fun hok => nomatch hok⟩
  | case4 bytes t hne w t' hwrite ih =>
      obtain ⟨htracks, hrpos, hcount⟩ := h.write hbytes
      rw [hwrite] at htracks hrpos hcount
      obtain ⟨hle, hwpos⟩ := hcount _ rfl
      have hrest : bytes.drop (w + 1) <+: source.drop t'.wpos := by
        obtain ⟨behind, hbehind⟩ := hbytes
        refine ⟨behind, ?_⟩
        rw [hwpos, ← List.drop_append_of_le_length hle, hbehind, List.drop_drop]
      obtain ⟨htracks', hrpos', hall⟩ := ih htracks hrest
      refine ⟨htracks', hrpos'.trans hrpos, ?_⟩
      intro hok
      rw [hall hok, hwpos, List.length_drop]
      omega

theorem fsCopyLoop_spec (r : Nat) (t : Transfer) (h : Tracks source t) (hpos : t.rpos = t.wpos) :
    Tracks source (fsCopyLoop r t).2 ∧
      ((fsCopyLoop r t).1 = true → (fsCopyLoop r t).2.wpos = t.wpos + r) := by
  fun_induction fsCopyLoop r t with
  | case1 t => exact ⟨h, fun _ => rfl⟩
  | case2 r t hne t' hread =>
      have htracks := (h.read (min r bufferSize)).1
      rw [hread] at htracks
      exact ⟨htracks, fun hok => nomatch hok⟩
  | case3 r t hne t' hread =>
      have htracks := (h.read (min r bufferSize)).1
      rw [hread] at htracks
      exact ⟨htracks, fun hok => nomatch hok⟩
  | case4 r t hne b bytes t' hread t'' hwrite =>
      obtain ⟨htracks, hwpos, hbytes⟩ := h.read (min r bufferSize)
      rw [hread] at htracks hwpos hbytes
      have hpre : b :: bytes <+: source.drop t'.wpos := by
        rw [hwpos, ← hpos]
        exact (hbytes _ rfl).1
      have hspec := fsCopyWrite_spec _ _ htracks hpre
      rw [hwrite] at hspec
      exact ⟨hspec.1, fun hok => nomatch hok⟩
  | case5 r t hne b bytes t' hread t'' hwrite ih =>
      obtain ⟨htracks, hwpos, hbytes⟩ := h.read (min r bufferSize)
      rw [hread] at htracks hwpos hbytes
      obtain ⟨hpre, hlen, hrpos⟩ := hbytes _ rfl
      have hpre' : b :: bytes <+: source.drop t'.wpos := by
        rw [hwpos, ← hpos]
        exact hpre
      obtain ⟨htracks', hrpos', hall⟩ := fsCopyWrite_spec _ _ htracks hpre'
      rw [hwrite] at htracks' hrpos' hall
      have hwpos' := hall rfl
      have hpos' : t''.rpos = t''.wpos := by
        rw [hrpos', hwpos', hrpos, hwpos, hpos]
      obtain ⟨htracks'', hdone⟩ := ih htracks' hpos'
      refine ⟨htracks'', ?_⟩
      intro hok
      have hlen' : bytes.length + 1 ≤ min r bufferSize := hlen
      rw [hdone hok, hwpos', hwpos, List.length_cons]
      omega

theorem fsCopyRange_spec (len : Nat) (t : Transfer) (h : Tracks source t)
    (hpos : t.rpos = t.wpos) :
    Tracks source (fsCopyRange len t).2 ∧
      ((fsCopyRange len t).1 = true → (fsCopyRange len t).2.wpos = t.wpos + len) := by
  fun_induction fsCopyRange len t with
  | case1 t => exact ⟨h, fun _ => rfl⟩
  | case2 len t hne t' hcall =>
      have htracks := (h.copyFileRange hpos len).1
      rw [hcall] at htracks
      exact ⟨htracks, fun hok => nomatch hok⟩
  | case3 len t hne t' hcall =>
      have htracks := (h.copyFileRange hpos len).1
      rw [hcall] at htracks
      exact ⟨htracks, fun hok => nomatch hok⟩
  | case4 len t hne ret t' hcall ih =>
      obtain ⟨htracks, hcount⟩ := h.copyFileRange hpos len
      rw [hcall] at htracks hcount
      obtain ⟨hle, hpos', hwpos⟩ := hcount _ rfl
      obtain ⟨htracks', hdone⟩ := ih htracks hpos'
      refine ⟨htracks', ?_⟩
      intro hok
      rw [hdone hok, hwpos]
      omega

/-- Before the first call nothing has been read or written. -/
theorem tracks_start (source : List UInt8) (schedule : List Outcome) :
    Tracks source ⟨source, [], 0, 0, none, schedule⟩ :=
  ⟨rfl, 0, Nat.le_refl 0, Nat.zero_le _, rfl⟩

/-- Whatever the system answers, the destination holds a prefix of the source;
and it holds all of it when the copy reports success. -/
theorem fsCopyData_spec (haveCopyFileRange : Bool) {len : Nat} {t : Transfer}
    (h : Tracks source t) (hrpos : t.rpos = 0) (hwpos : t.wpos = 0) (hlen : len = source.length) :
    (∃ m, (fsCopyData haveCopyFileRange len t).2.dest = source.take m) ∧
      (fsCopyData haveCopyFileRange len t).2.source = source ∧
      ((fsCopyData haveCopyFileRange len t).1 = true →
        (fsCopyData haveCopyFileRange len t).2.dest = source) := by
  have hstart : Tracks source { t with errno := none } := ⟨h.source_eq, h.dest_eq⟩
  have hdone : ∀ r : Bool × Transfer, Tracks source r.2 → (r.1 = true → r.2.wpos = len) →
      (∃ m, r.2.dest = source.take m) ∧ r.2.source = source ∧
        (r.1 = true → r.2.dest = source) := by
    intro r htracks hcount
    obtain ⟨m, -, -, hdest⟩ := htracks.dest_eq
    exact ⟨⟨m, hdest⟩, htracks.source_eq,
      fun hok => htracks.dest_eq_source ((hcount hok).trans hlen)⟩
  cases haveCopyFileRange with
  | false =>
      have hloop := fsCopyLoop_spec len _ hstart (hrpos.trans hwpos.symm)
      exact hdone _ hloop.1 (fun hok => (hloop.2 hok).trans (by rw [hwpos, Nat.zero_add]))
  | true =>
      have hrange := fsCopyRange_spec len _ hstart (hrpos.trans hwpos.symm)
      rw [fsCopyData, if_pos rfl]
      cases hcall : fsCopyRange len { t with errno := none } with
      | mk ok t' =>
          rw [hcall] at hrange
          cases ok with
          | true =>
              exact hdone _ hrange.1 (fun hok => (hrange.2 hok).trans (by rw [hwpos, Nat.zero_add]))
          | false =>
              simp only
              split
              · -- the other method starts over, on a destination that is not empty any more
                have hloop := fsCopyLoop_spec len _ hrange.1.rewind rfl
                exact hdone _ hloop.1 (fun hok => (hloop.2 hok).trans (Nat.zero_add len))
              · exact hdone _ hrange.1 (fun hok => nomatch hok)

end Loops

end Ffilesystem
