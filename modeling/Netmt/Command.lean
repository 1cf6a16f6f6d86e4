import Netmt.Lib.Region

/-!
# The command frame

`netmt_command_t` as the compiler lays it out: a 48-byte head, the command
text, and a union of the file part, the client record and the result text.
Both programs send and receive nothing but whole images of this structure.
-/
namespace NetmtCommand

/-- `sizeof(netmt_command_t)`. -/
@[simp] def commandSize : Nat := 5168

@[simp] def FILE_LEN : Nat := 256
@[simp] def LEN : Nat := 64
@[simp] def BUFFER_SIZE : Nat := 1024
@[simp] def POPEN_SIZE : Nat := 4096
@[simp] def DATABUF : Nat := 20480
@[simp] def SOCKADDR_STRLEN : Nat := 64

/-- `netmt_command_t`. -/
abbrev Frame := Region 5168

/-- `char databuf[DATABUF]`. -/
abbrev Databuf := Region 20480

/-! ## Field offsets -/

@[simp] def len : Nat := 0
@[simp] def commonid : Nat := 8
@[simp] def subcommonid : Nat := 12
@[simp] def fd : Nat := 20
@[simp] def flag : Nat := 28
@[simp] def lastSendPingTime : Nat := 32
@[simp] def lastRecvPongTime : Nat := 40
@[simp] def cmdstr : Nat := 48
@[simp] def localfile : Nat := 1072
@[simp] def remotefile : Nat := 1328
@[simp] def data : Nat := 1584
@[simp] def byteSize : Nat := 2608
@[simp] def dataSize : Nat := 2612
@[simp] def netmtclient : Nat := 1072
@[simp] def totalResult : Nat := 1072

/-! ## Fields of the client record, from its start -/

@[simp] def clientId : Nat := 68
@[simp] def clientArea : Nat := 72
@[simp] def clientType : Nat := 136

/-! ## `netmt_command_e` -/

@[simp] def NETMT_CLIENT : Nat := 2
@[simp] def NETMT_SEND : Nat := 3
@[simp] def NETMT_GET : Nat := 4
@[simp] def NETMT_REGISTER : Nat := 5
@[simp] def NETMT_PING : Nat := 6
@[simp] def NETMT_HEARTBEAT : Nat := 8
@[simp] def NETMT_EXEC : Nat := 9

/-! ## `netmt_subcommand_e` -/

@[simp] def NETMT_SEND_END : Nat := 1
@[simp] def NETMT_SEND_SUCCESS : Nat := 2
@[simp] def NETMT_GET_END : Nat := 3
@[simp] def NETMT_GET_SUCCESS : Nat := 4
@[simp] def NETMT_FILE_OPEN : Nat := 5
@[simp] def NETMT_DATA : Nat := 6
@[simp] def NETMT_SUCCESS : Nat := 7
@[simp] def NETMT_EXEC_SHELL_RESULT : Nat := 9
@[simp] def NETMT_EXEC_SHELL_SUCCESS : Nat := 11

/-- A frame whose length field is `sizeof(netmt_command_t)`, as every honest
sender sets it. -/
def WellSized (f : Frame) : Prop := f.i32 len = commandSize

instance (f : Frame) : Decidable (WellSized f) := inferInstanceAs (Decidable (_ = _))

/-- `sendbuf->len = sizeof(*sendbuf)`. -/
abbrev setLen (f : Frame) : Frame := f.putI32 len commandSize

theorem wellSized_setLen (f : Frame) : WellSized (setLen f) := by
  rw [WellSized, Region.i32_put_same _ _ _ (by decide)]
  rfl

theorem wellSized_put (f : Frame) (off : Nat) (bs : List UInt8) (hl : 4 ≤ off)
    (hh : off + bs.length ≤ 5168) : WellSized (f.put off bs) ↔ WellSized f := by
  rw [WellSized, WellSized, len, Region.i32_put_other _ _ _ _ hh (Or.inl hl)]

/-- The four length bytes of a well-sized frame; the last one is zero. -/
theorem header_bytes (f : Frame) (h : WellSized f) :
    f.bytes.take 4 = [0x30, 0x14, 0, 0] := by
  have hlen : (f.bytes.take 4).length = 4 := by simp
  have hlt := Region.leNat_lt (f.bytes.take 4)
  have hnat : Region.leNat (f.bytes.take 4) = commandSize := by
    have hb : Region.wrap32 (Region.leNat (f.bytes.take 4)) = Region.wrap32 commandSize := h
    rw [Region.wrap32_eq_iff] at hb
    rw [hlen] at hlt
    simp only [commandSize] at hb ⊢
    omega
  have he := Region.leBytes_leNat (f.bytes.take 4)
  rw [hlen, hnat] at he
  rw [← he]
  decide

end NetmtCommand
