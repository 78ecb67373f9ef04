import LinuxNetwork.Buffer

/-!
# The Passing of Descriptors

This module embeds `send_fd` and `recv_fd` of `linux_communicator/io_shared_memory.h`, which pass
descriptors from one process to another in the control message of `sendmsg` and `recvmsg`. The
control buffer is its bytes: a `cmsghdr` with its length, level and type, and the descriptors behind
it, as the C library of a 64-bit system lays them out. An access outside of a buffer makes a
function return `none`.

What `recvmsg` returns is input, with the control buffer as the kernel leaves it; if it fails, it
leaves the buffer alone. `malloc` succeeds. The byte of data that is sent along is left out.

## Main definitions

* `FdPassing.sendFd`, `FdPassing.recvFd`: the two functions.
* `FdPassing.Delivers`: the kernel passes the descriptors on, unchanged in number and order.

## Main results

* `FdPassing.sendFd_spec`: what is in the control buffer that is sent.
* `FdPassing.copyOut_delivered`: what the copy that `recv_fd` makes would yield.
* `FdPassing.recvFd_never_undoes`: what `recv_fd` returns.
-/

namespace LinuxNetwork.FdPassing

open Buffer

/-- `sizeof(int)` -/
def sizeofInt : ℕ := 4

/-- `sizeof(struct cmsghdr)` -/
def sizeofCmsghdr : ℕ := 16

/-- `SOL_SOCKET` -/
def SOL_SOCKET : ℕ := 1

/-- `SCM_RIGHTS` -/
def SCM_RIGHTS : ℕ := 1

/-- `CMSG_ALIGN(len)` -/
def CMSG_ALIGN (len : ℕ) : ℕ :=
  (len + 7) / 8 * 8

/-- `CMSG_SPACE(len)` -/
def CMSG_SPACE (len : ℕ) : ℕ :=
  CMSG_ALIGN len + CMSG_ALIGN sizeofCmsghdr

/-- `CMSG_LEN(len)` -/
def CMSG_LEN (len : ℕ) : ℕ :=
  CMSG_ALIGN sizeofCmsghdr + len

/-- `CMSG_FIRSTHDR(&msg)`, as an index of the control buffer; it is null if no header fits in. -/
def CMSG_FIRSTHDR (msgControllen : ℕ) : Option ℕ :=
  if sizeofCmsghdr ≤ msgControllen then some 0 else none

/-- `CMSG_DATA(cmsg)` -/
def CMSG_DATA (cmsg : ℕ) : ℕ :=
  cmsg + sizeofCmsghdr

/-- `char buf[CMSG_SPACE(n*sizeof(int))]`, behind `memset`. -/
def newBuf (n : ℕ) : List UInt8 :=
  List.replicate (CMSG_SPACE (n * sizeofInt)) 0

/-- `send_fd(socket, fd, n)`, as far as `sendmsg`: the control buffer. -/
def sendFd (fd : List (BitVec 32)) (n : ℕ) : Option (List UInt8) := do
  let buf := newBuf n
  let cmsg ← CMSG_FIRSTHDR buf.length
  let buf ← write buf (cmsg + 8) (bytes 4 SOL_SOCKET)
  let buf ← write buf (cmsg + 12) (bytes 4 SCM_RIGHTS)
  let buf ← write buf cmsg (bytes 8 (CMSG_LEN (n * sizeofInt)))
  if n ≤ fd.length then write buf (CMSG_DATA cmsg) (bytesOf (fd.take n)) else none

/-- What `recvmsg` returns. -/
inductive Recvmsg where
  /-- -1 -/
  | failed
  /-- It has received a message; the control buffer holds these bytes. -/
  | received (buf : List UInt8)
deriving DecidableEq, Repr

/-- What `recv_fd` returns. -/
inductive Returned where
  | array (fd : List (BitVec 32))
  /-- The end of the function is reached, and no value is returned. -/
  | nothing
deriving DecidableEq, Repr

/-- `cmsg = CMSG_FIRSTHDR(&msg); memcpy(fd, (int *) CMSG_DATA(cmsg), n * sizeof(int));` -/
def copyOut (buf : List UInt8) (n : ℕ) : Option (List (BitVec 32)) := do
  let cmsg ← CMSG_FIRSTHDR buf.length
  let fd ← read buf (CMSG_DATA cmsg) (n * sizeofInt)
  some (words n fd)

/-- `recv_fd(socket, n)` -/
def recvFd (n : ℕ) : Recvmsg → Option Returned
  | .failed => do
      let fd ← copyOut (newBuf n) n
      some (.array fd)
  | .received _ => some .nothing

/-! ### What the kernel passes on -/

/-- A header (`struct cmsghdr`). -/
structure Cmsghdr where
  cmsgLen : ℕ
  cmsgLevel : ℕ
  cmsgType : ℕ
deriving DecidableEq, Repr

/-- The header in a control buffer. -/
def header (buf : List UInt8) : Option Cmsghdr := do
  let len ← read buf 0 8
  let level ← read buf 8 4
  let type ← read buf 12 4
  some ⟨value len, value level, value type⟩

/-- The descriptors in a control buffer. -/
def payload (buf : List UInt8) (n : ℕ) : Option (List (BitVec 32)) :=
  (read buf sizeofCmsghdr (n * sizeofInt)).map (words n)

variable {F : Type*} {n : ℕ} {fds : List (BitVec 32)} {buf buf' : List UInt8}
  {table table' : BitVec 32 → Option F}

/-- **The kernel passes the descriptors on**, unchanged in number and order: those in the buffer
that is received denote in the receiving process (`table'`) what those in the buffer that was sent
denote in the sending process. -/
structure Delivers (n : ℕ) (buf : List UInt8) (table : BitVec 32 → Option F) (buf' : List UInt8)
    (table' : BitVec 32 → Option F) : Prop where
  length : buf'.length = buf.length
  header : header buf' = header buf
  files : ∃ sent got, payload buf n = some sent ∧ payload buf' n = some got ∧
    (∀ fd ∈ sent, (table fd).isSome) ∧ got.map table' = sent.map table

/-- **`recv_fd` undoes `send_fd`**: it returns as many descriptors as were sent, and each denotes
the same open file as the one at its place. -/
def Undoes (fds : List (BitVec 32)) (table table' : BitVec 32 → Option F)
    (result : Option Returned) : Prop :=
  ∃ got, result = some (.array got) ∧ got.length = fds.length ∧ got.map table' = fds.map table

/-- **No descriptor is returned as valid.** -/
def Refuses (result : Option Returned) : Prop :=
  ∀ got, result = some (.array got) → ∀ fd ∈ got, fd.toInt < 0

/-! ### The control buffer -/

/-- The alignment of a length is not below it, so what is aligned has room for what was asked. -/
theorem le_CMSG_ALIGN (len : ℕ) : len ≤ CMSG_ALIGN len := by
  rw [CMSG_ALIGN]
  omega

/-- The buffer has room for the header and the descriptors, since `CMSG_SPACE` rounds both of
them up. -/
theorem length_newBuf (n : ℕ) : sizeofCmsghdr + n * sizeofInt ≤ (newBuf n).length := by
  have hlen := le_CMSG_ALIGN (n * sizeofInt)
  rw [newBuf, List.length_replicate, CMSG_SPACE, Nat.add_comm]
  exact Nat.add_le_add hlen (le_CMSG_ALIGN _)

/-- There is a first header in a buffer of this size, at its start. -/
theorem firstHdr_eq (hlen : sizeofCmsghdr ≤ buf.length) : CMSG_FIRSTHDR buf.length = some 0 :=
  if_pos hlen

/-- The copy is made from where the descriptors are, behind the header. -/
theorem copyOut_eq (hlen : sizeofCmsghdr ≤ buf.length) : copyOut buf n = payload buf n := by
  rw [copyOut, firstHdr_eq hlen, payload]
  cases hread : read buf sizeofCmsghdr (n * sizeofInt) <;> simp [CMSG_DATA, hread]

/-- **What `send_fd` sends**: a header of the right length, level and type, and the descriptors.
The number is an `int`. Each field is written once, and the writes behind it are elsewhere. -/
theorem sendFd_spec (hn : n < 2 ^ 31) (hlen : fds.length = n) :
    ∃ buf, sendFd fds n = some buf ∧ buf.length = (newBuf n).length ∧
      header buf = some ⟨CMSG_LEN (n * sizeofInt), SOL_SOCKET, SCM_RIGHTS⟩ ∧
      payload buf n = some fds := by
  have hroom := length_newBuf n
  have hsize : sizeofCmsghdr = 16 := rfl
  have hbytes : (bytesOf (fds.take n)).length = n * sizeofInt := by
    rw [length_bytesOf, List.length_take_of_le (Nat.le_of_eq hlen.symm), sizeofInt, Nat.mul_comm]
  obtain ⟨buf₁, h₁⟩ : ∃ buf₁, write (newBuf n) 8 (bytes 4 SOL_SOCKET) = some buf₁ :=
    exists_write (by rw [length_bytes]; omega)
  have hlen₁ := length_write h₁
  obtain ⟨buf₂, h₂⟩ : ∃ buf₂, write buf₁ 12 (bytes 4 SCM_RIGHTS) = some buf₂ :=
    exists_write (by rw [length_bytes]; omega)
  have hlen₂ := length_write h₂
  obtain ⟨buf₃, h₃⟩ : ∃ buf₃, write buf₂ 0 (bytes 8 (CMSG_LEN (n * sizeofInt))) = some buf₃ :=
    exists_write (by rw [length_bytes]; omega)
  have hlen₃ := length_write h₃
  obtain ⟨buf₄, h₄⟩ : ∃ buf₄, write buf₃ sizeofCmsghdr (bytesOf (fds.take n)) = some buf₄ :=
    exists_write (by omega)
  have hlen₄ := length_write h₄
  have hfield : (bytes 8 (CMSG_LEN (n * sizeofInt))).length = 8 := length_bytes 8 _
  refine ⟨buf₄, ?_, by omega, ?_, ?_⟩
  · have hfirst : CMSG_FIRSTHDR (newBuf n).length = some 0 := firstHdr_eq (by omega)
    simp [sendFd, hfirst, h₁, h₂, h₃, hlen, CMSG_DATA, h₄]
  · have hcmsgLen : read buf₄ 0 8 = some (bytes 8 (CMSG_LEN (n * sizeofInt))) := by
      rw [read_write_before h₄ (by omega)]
      exact read_write h₃
    have hlevel : read buf₄ 8 4 = some (bytes 4 SOL_SOCKET) := by
      rw [read_write_before h₄ (by omega), read_write_behind h₃ (by omega),
        read_write_before h₂ (by omega)]
      exact read_write h₁
    have htype : read buf₄ 12 4 = some (bytes 4 SCM_RIGHTS) := by
      rw [read_write_before h₄ (by omega), read_write_behind h₃ (by omega)]
      exact read_write h₂
    have hfits : CMSG_LEN (n * sizeofInt) < 256 ^ 8 := by
      simp only [CMSG_LEN, CMSG_ALIGN, sizeofCmsghdr, sizeofInt]
      omega
    have hsol : value (bytes 4 SOL_SOCKET) = SOL_SOCKET := by decide
    have hscm : value (bytes 4 SCM_RIGHTS) = SCM_RIGHTS := by decide
    simp [header, hcmsgLen, hlevel, htype, value_bytes hfits, hsol, hscm]
  · have hread : read buf₄ sizeofCmsghdr (n * sizeofInt) = some (bytesOf (fds.take n)) := by
      rw [← hbytes]
      exact read_write h₄
    rw [payload, hread, Option.map_some, List.take_of_length_le (Nat.le_of_eq hlen), ← hlen,
      words_bytesOf]

/-- What is sent holds the descriptors, behind the header, in their order. -/
theorem payload_sendFd (hn : n < 2 ^ 31) (hlen : fds.length = n) (hsend : sendFd fds n = some buf) :
    payload buf n = some fds := by
  obtain ⟨buf₁, hsend₁, -, -, hpayload⟩ := sendFd_spec hn hlen
  obtain rfl := Option.some.inj (hsend.symm.trans hsend₁)
  exact hpayload

/-- A buffer that holds other descriptors for the same files may be what the kernel delivers. -/
theorem delivers_of_sendFd {fds' : List (BitVec 32)} (hn : n < 2 ^ 31) (hlen : fds.length = n)
    (hlen' : fds'.length = n) (hsend : sendFd fds n = some buf) (hsend' : sendFd fds' n = some buf')
    (hopen : ∀ fd ∈ fds, (table fd).isSome) (hfiles : fds'.map table' = fds.map table) :
    Delivers n buf table buf' table' := by
  obtain ⟨buf₁, hsend₁, hsize, hheader, hpayload⟩ := sendFd_spec hn hlen
  obtain rfl := Option.some.inj (hsend.symm.trans hsend₁)
  obtain ⟨buf₂, hsend₂, hsize', hheader', hpayload'⟩ := sendFd_spec hn hlen'
  obtain rfl := Option.some.inj (hsend'.symm.trans hsend₂)
  exact ⟨hsize'.trans hsize.symm, hheader'.trans hheader.symm, fds, fds', hpayload, hpayload',
    hopen, hfiles⟩

/-- **The copy that `recv_fd` makes undoes `send_fd`**, if it is made of what `recvmsg` received:
sender and receiver agree on the layout of the control buffer. -/
theorem copyOut_delivered (hn : n < 2 ^ 31) (hlen : fds.length = n)
    (hsend : sendFd fds n = some buf) (h : Delivers n buf table buf' table') :
    ∃ got, copyOut buf' n = some got ∧ Undoes fds table table' (some (.array got)) := by
  obtain ⟨buf₁, hsend₁, hsize, -⟩ := sendFd_spec hn hlen
  obtain rfl := Option.some.inj (hsend.symm.trans hsend₁)
  obtain ⟨sent, got, hsent, hgot, -, hfiles⟩ := h.files
  obtain rfl := Option.some.inj ((payload_sendFd hn hlen hsend).symm.trans hsent)
  have hroom := length_newBuf n
  refine ⟨got, ?_, got, rfl, ?_, hfiles⟩
  · rw [copyOut_eq (by rw [h.length]; omega)]
    exact hgot
  · have := congrArg List.length hfiles
    rwa [List.length_map, List.length_map] at this

/-! ### What `recv_fd` returns -/

/-- When `recvmsg` fails, `recv_fd` returns as many zeros as descriptors were expected: it
copies them out of the cleared control buffer. -/
theorem recvFd_failed (n : ℕ) : recvFd n .failed = some (.array (List.replicate n 0)) := by
  have hroom := length_newBuf n
  have hread : read (newBuf n) sizeofCmsghdr (n * sizeofInt) =
      some (List.replicate (4 * n) 0) := by
    rw [Buffer.read, if_pos hroom, newBuf, List.drop_replicate, List.take_replicate, sizeofInt,
      Nat.mul_comm n]
    rw [newBuf, List.length_replicate, sizeofInt, Nat.mul_comm n] at hroom
    rw [Nat.min_eq_left (by omega)]
  have hcopy : copyOut (newBuf n) n = some (List.replicate n 0) := by
    rw [copyOut_eq (by omega), payload, hread, Option.map_some, words_replicate_zero]
  rw [recvFd, hcopy]
  rfl

/-- **`recv_fd` never undoes `send_fd`.** For every positive number of descriptors: when both calls
succeed and the kernel passes the descriptors on, `recv_fd` returns no array, and when `recvmsg`
fails, it returns one, of descriptors that look valid. -/
theorem recvFd_never_undoes (hn : 1 ≤ n) (hlen : fds.length = n)
    (table table' : BitVec 32 → Option F) :
    (∀ buf buf', sendFd fds n = some buf → Delivers n buf table buf' table' →
      ¬ Undoes fds table table' (recvFd n (.received buf'))) ∧ ¬ Refuses (recvFd n .failed) := by
  refine ⟨fun buf buf' _ _ => ?_, fun hrefuses => ?_⟩
  · rintro ⟨got, hgot, -⟩
    cases hgot
  · have hzero : (0 : BitVec 32) ∈ List.replicate n 0 := List.mem_replicate.mpr ⟨by omega, rfl⟩
    exact absurd (hrefuses _ (recvFd_failed n) 0 hzero) (by decide)

/-- The exchange of one descriptor, 5, which arrives as 9: it is not returned, and a failure yields
the standard input. -/
theorem recvFd_never_undoes_example :
    ∃ buf buf', sendFd [5] 1 = some buf ∧
      Delivers 1 buf (fun fd => if fd = 5 then some 0 else none) buf'
        (fun fd => if fd = 9 then some 0 else none) ∧
      ¬ Undoes [5] (fun fd => if fd = 5 then some 0 else none)
        (fun fd => if fd = 9 then some 0 else none) (recvFd 1 (.received buf')) ∧
      ¬ Refuses (recvFd 1 .failed) := by
  have hlen : ([5] : List (BitVec 32)).length = 1 := rfl
  have hlen' : ([9] : List (BitVec 32)).length = 1 := rfl
  obtain ⟨buf, hsend, -⟩ := sendFd_spec (by decide) hlen
  obtain ⟨buf', hsend', -⟩ := sendFd_spec (by decide) hlen'
  have hdelivers : Delivers 1 buf (fun fd => if fd = 5 then some 0 else none) buf'
      (fun fd => if fd = 9 then some 0 else none) :=
    delivers_of_sendFd (by decide) hlen hlen' hsend hsend' (by simp) (by simp)
  obtain ⟨hundoes, hrefuses⟩ := recvFd_never_undoes (Nat.le_refl 1) hlen
    (fun fd => if fd = 5 then some 0 else none) fun fd => if fd = 9 then some 0 else none
  exact ⟨buf, buf', hsend, hdelivers, hundoes buf buf' hsend hdelivers, hrefuses⟩

/-- **One descriptor is passed on**, and `recv_fd` does not return it. -/
theorem not_undoes_one :
    ¬ ∀ (n : ℕ) (fds : List (BitVec 32)) (table table' : BitVec 32 → Option ℕ)
      (buf buf' : List UInt8), 1 ≤ n → fds.length = n → sendFd fds n = some buf →
      Delivers n buf table buf' table' → Undoes fds table table' (recvFd n (.received buf')) := by
  intro hall
  have hlen : ([5] : List (BitVec 32)).length = 1 := rfl
  obtain ⟨buf, hsend, -⟩ := sendFd_spec (by decide) hlen
  have hdelivers : Delivers 1 buf (fun fd => if fd = 5 then some 0 else none) buf
      (fun fd => if fd = 5 then some 0 else none) :=
    delivers_of_sendFd (by decide) hlen hlen hsend hsend (by simp) (by simp)
  obtain ⟨got, hgot, -⟩ := hall 1 [5] _ _ buf buf (by decide) rfl hsend hdelivers
  cases hgot

end LinuxNetwork.FdPassing
