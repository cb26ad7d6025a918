import CanBoot.Net.Tftp

/-!
# Datagrams from elsewhere

The client locks onto a transfer-ID, and its comment says that datagrams from any other source are ignored. The lock is
a port: the address is not kept. And an error is believed before the lock is looked at. So a foreign datagram is
ignored exactly when it is no error and comes from another port, or cannot do anything anyway
(`foreign_ignored_iff`).
-/

namespace CanBoot.Net.Tftp

variable {x : Xfer} {d : Datagram} {host : Host}

/-- The datagram is one that `rx_cb` takes for data. -/
def IsData (d : Datagram) : Prop := 4 ≤ d.bytes.length ∧ d.op = opData

/-- The transfer is locked onto a host: the one that sent the first block. -/
def Locked (x : Xfer) (host : Host) : Prop := x.haveTid = true ∧ x.srvPort = host.port

/-- The callback leaves the transfer as it was and sends nothing, with or without buffers. -/
def Ignored (x : Xfer) (d : Datagram) : Prop := ∀ alloc, rxCb alloc x d = (x, [])

/-- What a foreign datagram must be to be ignored: no data from the port the client is locked onto, and no error unless
the transfer has failed already. -/
def Harmless (x : Xfer) (d : Datagram) : Prop :=
  4 ≤ d.bytes.length → (d.op = opError → x.error = true ∧ x.done = true) ∧ (d.op = opData → d.source.port ≠ x.srvPort)

/-! ## The lock -/

theorem store_lock (x : Xfer) (d : Datagram) : (store x d).haveTid = x.haveTid ∧ (store x d).srvPort = x.srvPort := by
  rw [store]
  dsimp only
  split_ifs <;> exact ⟨rfl, rfl⟩

theorem rxData_lock (alloc : Bool) (x : Xfer) (d : Datagram) :
    (rxData alloc x d).1.haveTid = x.haveTid ∧ (rxData alloc x d).1.srvPort = x.srvPort := by
  rw [rxData]
  dsimp only
  split_ifs
  · exact store_lock x d
  · exact store_lock x d
  · exact ⟨rfl, rfl⟩

/-- The first datagram taken for data sets the lock. -/
theorem locked_of_data (alloc : Bool) (free : x.haveTid = false) (data : IsData d) :
    Locked (rxCb alloc x d).1 d.source := by
  obtain ⟨long, op⟩ := data
  rw [rxCb, if_neg (by omega), if_neg (by rw [op]; decide), if_neg (not_not.mpr op), if_pos (by rw [free]; rfl)]
  exact rxData_lock alloc _ d

/-! ## What is ignored -/

/-- Data from the port of the lock is answered, whichever host it is from. -/
theorem rxData_answers (x : Xfer) (d : Datagram) : (rxData true x d).2 ≠ [] := by
  rw [rxData]
  dsimp only
  split_ifs <;> exact List.cons_ne_nil _ _

theorem harmless_of_ignored (tid : x.haveTid = true) (ignored : Ignored x d) : Harmless x d := by
  intro long
  have run := ignored true
  rw [rxCb, if_neg (by omega)] at run
  constructor
  · intro error
    rw [if_pos error] at run
    have failed : { x with error := true, done := true } = x := congrArg Prod.fst run
    rw [← failed]
    exact ⟨rfl, rfl⟩
  · intro data port
    rw [if_neg (by rw [data]; decide), if_neg (not_not.mpr data), if_neg (by rw [tid]; decide),
      if_neg (not_not.mpr port)] at run
    exact rxData_answers x d (congrArg Prod.snd run)

theorem ignored_of_harmless (tid : x.haveTid = true) (harmless : Harmless x d) : Ignored x d := by
  intro alloc
  rw [rxCb]
  split_ifs with short error other free port
  · rfl
  · obtain ⟨failed, ended⟩ := (harmless (by omega)).1 error
    have same : { x with error := true, done := true } = x := by
      cases x
      cases failed
      cases ended
      rfl
    rw [same]
  · rfl
  · rw [tid] at free
    cases free
  · rfl
  · exact absurd (not_not.mp port) ((harmless (by omega)).2 (not_not.mp other))

/-- **A datagram from elsewhere is ignored exactly when it is harmless.** -/
theorem foreign_ignored_iff (locked : Locked x host) (d : Datagram) :
    (d.source ≠ host → Ignored x d) ↔ (d.source ≠ host → Harmless x d) :=
  ⟨fun ignored foreign => harmless_of_ignored locked.1 (ignored foreign),
    fun harmless foreign => ignored_of_harmless locked.1 (harmless foreign)⟩

/-! ## A transfer under attack -/

/-- The server, and somebody else. -/
def server : Host := ⟨0x0A000202, 50000⟩

def attacker : Host := ⟨0x06060606, 1234⟩

/-- The first block of a file, in full. -/
def firstBlock : Datagram where
  source := server
  bytes := [0, 3, 0, 1] ++ List.replicate 512 65
  small := by rw [List.length_append, List.length_replicate]; decide

/-- A transfer of at most 4096 bytes, locked onto the server by its first block. -/
def begun : Xfer := (rxCb true (Xfer.start (fun _ => 0) 4096) firstBlock).1

theorem locked_begun : Locked begun server := locked_of_data true rfl ⟨by decide +kernel, by decide +kernel⟩

theorem going_begun : begun.error = false := by decide +kernel

/-- The second block, from another port of another host. -/
def otherPort : Datagram := ⟨attacker, [0, 3, 0, 2, 66], by decide⟩

/-- It is ignored. -/
theorem foreign_ignored_otherPort : Locked begun server ∧ otherPort.source ≠ server ∧ Ignored begun otherPort := by
  refine ⟨locked_begun, by decide, (foreign_ignored_iff locked_begun otherPort).mpr (fun _ _ => ⟨?_, ?_⟩) (by decide)⟩
  · intro error
    exact absurd error (by decide)
  · intro _ port
    exact absurd (port.trans locked_begun.2) (by decide)

/-- An error from that host. -/
def forgedError : Datagram := ⟨attacker, [0, 5, 0, 0], by decide⟩

/-- The second block from that host, from the server's port. -/
def forgedBlock : Datagram := ⟨⟨attacker.addr, server.port⟩, [0, 3, 0, 2, 66], by decide⟩

/-- **Anybody can end a transfer**, with four bytes from any port; and whoever knows the port writes into the file. -/
theorem foreign_datagrams_accepted : Locked begun server ∧ begun.done = false ∧
      (forgedError.source ≠ server ∧ ¬ Ignored begun forgedError ∧
        (rxCb true begun forgedError).1.done = true ∧ (rxCb true begun forgedError).1.error = true) ∧
      (forgedBlock.source ≠ server ∧ ¬ Ignored begun forgedBlock ∧
        (rxCb true begun forgedBlock).1.len = 513 ∧ (rxCb true begun forgedBlock).1.out 512 = 66) := by
  refine ⟨locked_begun, by decide +kernel, ⟨by decide, fun ignored => ?_, rfl, rfl⟩,
    ⟨by decide, fun ignored => ?_, by decide +kernel, by decide +kernel⟩⟩
  · obtain ⟨failed, -⟩ := (harmless_of_ignored locked_begun.1 ignored (by decide)).1 (by decide)
    rw [going_begun] at failed
    cases failed
  · exact (harmless_of_ignored locked_begun.1 ignored (by decide)).2 (by decide) locked_begun.2.symm

end CanBoot.Net.Tftp
