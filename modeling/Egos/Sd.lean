/-
**The SD card and its driver.**

The driver of `earth/sd` talks to the card byte by byte over the SPI bus: every byte sent brings one
back. The card, which is not part of the repository, is a state machine that follows the SPI-mode
protocol: it takes commands of six bytes and data packets, and its answers come after delays of its
own, which are not known in advance.  A card of standard capacity, of version 1 or 2, takes byte
addresses, and a card of high capacity takes block numbers.  `sdinit` finds out what the card is;
`single_read` and `single_write` turn a block number into a byte address for a card of version 2 and
standard capacity, but not for one of version 1.

Main definitions:

* `Egos.Sd.Kind`, `Egos.Sd.Core`, `Egos.Sd.Delay`, `Egos.Sd.Card` — **the card**;
* `Egos.Sd.sdExecCmd`, `Egos.Sd.sdExecAcmd`, `Egos.Sd.sdinit` — `earth/sd/sd_utils.c`;
* `Egos.Sd.singleRead`, `Egos.Sd.singleWrite`, `Egos.Sd.sdread`, `Egos.Sd.sdwrite` —
  `earth/sd/sd_rw.c`;
* `Egos.Sd.Serves` — reads and writes of a range of blocks do what they should.

Main results:

* `Egos.Sd.takes_sdinit` — the type of the card is found, and no block changes;
* `Egos.Sd.takes_sdwrite`, `Egos.Sd.takes_sdread` — the blocks that the addresses sent name;
* `Egos.Sd.sd_serves_iff` — **which ranges are served** on each kind of card.
-/

import Egos.Timed
import Egos.Block
import Mathlib.Data.List.GetD

set_option autoImplicit false

namespace Egos.Sd

open Function (update update_of_ne update_self)
open Timed

/-! ### The card -/

/-- The kinds of cards. -/
inductive Kind
  | version1
  | standard2
  | high2
  deriving DecidableEq

/-- How many blocks a card can have: a 32-bit argument is a byte address on a card of standard
capacity, and a block number on one of high capacity. -/
def Kind.maxBlocks : Kind → ℕ
  | .version1 => 2 ^ 23
  | .standard2 => 2 ^ 23
  | .high2 => 2 ^ 32

/-- What a card keeps between two commands. -/
structure Core where
  kind : Kind
  capacity : ℕ
  capacity_le : capacity ≤ kind.maxBlocks
  blocks : ℕ → Block
  /-- The initialisation has not been completed. -/
  idle : Bool
  /-- How often acmd41 is still answered by "in idle state". -/
  tries : ℕ
  /-- The bits of the first byte of the operation conditions register other than the two highest. -/
  ocr : UInt8
  /-- The last command was cmd55. -/
  app : Bool

/-- The number that four bytes stand for, most significant byte first. -/
def beNat (bytes : List UInt8) : ℕ := bytes.foldl (fun n b => 256 * n + b.toNat) 0

/-- The block that the argument of a read or write command names, or the status of the refusal: an
address error (bit 5) or a parameter error (bit 6). -/
def Core.address (m : Core) (arg : ℕ) : Except UInt8 ℕ :=
  match m.kind with
  | .high2 => if arg < m.capacity then .ok arg else .error 0x40
  | _ =>
      if arg % 512 ≠ 0 then .error 0x20
      else if arg / 512 < m.capacity then .ok (arg / 512)
      else .error 0x40

/-- What a card answers to a command. -/
inductive Answer
  /-- A status byte and what follows it. -/
  | status (r : UInt8) (payload : List UInt8)
  /-- The status 0, and a data packet with this block. -/
  | block (b : Block)
  /-- The status 0; a data packet for this block has to follow. -/
  | receive (k : ℕ)

/-- The status byte of a command that is carried out: bit 0 is "in idle state". -/
def Core.status (m : Core) : UInt8 := if m.idle then 0x01 else 0x00

/-- Carrying out a command of six bytes. -/
def Core.execute (m : Core) (cmd : List UInt8) : Core × Answer :=
  let arg := (cmd.drop 1).take 4
  let m' := { m with app := false }
  match (cmd.headD 0 &&& 0x3F).toNat with
  | 0 => ({ m' with idle := true }, .status 0x01 [])
  | 8 =>
      -- A card of version 1 does not know this command; the others repeat voltage and pattern.
      if m.kind = .version1 then (m', .status (m.status ||| 0x04) [])
      else (m', .status m.status [0x00, 0x00, arg.getD 2 0 &&& 0x0F, arg.getD 3 0])
  | 55 => ({ m with app := true }, .status m.status [])
  | 41 =>
      if !m.app then (m', .status (m.status ||| 0x04) [])
      -- A card of high capacity is ready only for a host that says that it supports such cards.
      else if m.kind = .high2 ∧ arg.getD 0 0 &&& 0x40 = 0 then (m', .status 0x01 [])
      else if m.tries = 0 then ({ m' with idle := false }, .status 0x00 [])
      else ({ m' with tries := m.tries - 1 }, .status 0x01 [])
  | 16 => (m', .status m.status [])
  | 58 =>
      let ccs : UInt8 := if m.kind = .high2 then 0xC0 else 0x80
      (m', .status m.status [ccs ||| (m.ocr &&& 0x3F), 0xFF, 0x80, 0x00])
  | 17 =>
      if m.idle then (m', .status 0x05 [])
      else match m.address (beNat arg) with
        | .error e => (m', .status e [])
        | .ok k => (m', .block (m.blocks k))
  | 24 =>
      if m.idle then (m', .status 0x05 [])
      else match m.address (beNat arg) with
        | .error e => (m', .status e [])
        | .ok k => (m', .receive k)
  | _ => (m', .status (m.status ||| 0x04) [])

/-- The delays of one answer.  The status comes within the 8000 polls of the driver; all else may
take any finite time. -/
structure Delay where
  /-- How many times 0xFF comes before the status. -/
  reply : ℕ
  reply_lt : reply < 8000
  /-- What comes before the token of a data packet. -/
  token : List UInt8
  token_ne : 0xFE ∉ token
  checksum : UInt8 × UInt8
  /-- How many times 0xFF comes before a data packet is acknowledged. -/
  ack : ℕ
  /-- The undefined bits of the acknowledgement. -/
  ackHigh : UInt8
  /-- What comes while the card is busy afterwards. -/
  busy : List UInt8
  busy_ne : 0xFF ∉ busy

/-- What a card expects from the host. -/
inductive Input
  /-- A command, of which it has these bytes. -/
  | command (got : List UInt8)
  /-- The token of the data packet for block `k`. -/
  | token (k : ℕ)
  /-- The rest of that packet, of which it has these bytes. -/
  | data (k : ℕ) (got : List UInt8)

/-- A card. -/
structure Card where
  core : Core
  input : Input
  /-- The bytes that it is going to send. -/
  out : List UInt8
  /-- The delays of its next answers. -/
  delays : ℕ → Delay

/-- The block of the first 512 of these bytes. -/
def blockOf (bytes : List UInt8) : Block := fun i => bytes.getD i.val 0

namespace Card

/-- The delays after the next answer. -/
def laterDelays (c : Card) : ℕ → Delay := fun n => c.delays (n + 1)

/-- What a card sends, and expects, when it answers. -/
def answer (c : Card) (m : Core) : Answer → Card
  | .status r payload =>
      { core := m, input := .command [], delays := c.laterDelays
        out := List.replicate (c.delays 0).reply 0xFF ++ r :: (payload ++ (c.delays 0).busy) }
  | .block b =>
      { core := m, input := .command [], delays := c.laterDelays
        out := List.replicate (c.delays 0).reply 0xFF ++ 0x00 :: ((c.delays 0).token ++ 0xFE ::
          (b.bytes ++ ([(c.delays 0).checksum.1, (c.delays 0).checksum.2] ++
            (c.delays 0).busy))) }
  | .receive k =>
      { core := m, input := .token k, delays := c.laterDelays
        out := List.replicate (c.delays 0).reply 0xFF ++ [0x00] }

/-- A card that has the six bytes of a command. -/
def execute (c : Card) (cmd : List UInt8) : Card :=
  c.answer (c.core.execute cmd).1 (c.core.execute cmd).2

/-- A card that has the 514 bytes of a data packet, the last two of which are a checksum. -/
def store (c : Card) (k : ℕ) (bytes : List UInt8) : Card :=
  { core := { c.core with blocks := update c.core.blocks k (blockOf bytes) }
    input := .command []
    delays := c.laterDelays
    out := List.replicate (c.delays 0).ack 0xFF ++
      (((c.delays 0).ackHigh &&& 0xE0) ||| 0x05) :: (c.delays 0).busy }

/-- A card takes a byte.  The first byte of a command starts with the bits 01. -/
def receive (c : Card) (b : UInt8) : Card :=
  match c.input with
  | .command [] => if b &&& 0xC0 = 0x40 then { c with input := .command [b] } else c
  | .command got =>
      if got.length < 5 then { c with input := .command (got ++ [b]) } else c.execute (got ++ [b])
  | .token k => if b = 0xFE then { c with input := .data k [] } else c
  | .data k got =>
      if got.length < 513 then { c with input := .data k (got ++ [b]) } else c.store k (got ++ [b])

/-- A byte goes to the card, and a byte comes back. -/
def exchange (c : Card) (b : UInt8) : UInt8 × Card :=
  match c.out with
  | [] => (0xFF, c.receive b)
  | x :: out => (x, { c with out := out })

end Card

/-! ### The driver -/

/-- Code of the driver. -/
abbrev Driver (α : Type) : Type := Code Card α

/-- `send_data_byte`. -/
def sendDataByte (b : UInt8) : Driver UInt8 := Timed.exchange fun c => c.exchange b

/-- `recv_data_byte`. -/
def recvDataByte : Driver UInt8 := sendDataByte 0xFF

/-- `for (...) send_data_byte(bytes[i]);`. -/
def sendBytes : List UInt8 → Driver Unit
  | [] => return ()
  | b :: bytes => do
      let _ ← sendDataByte b
      sendBytes bytes

/-- `for (...) bytes[i] = recv_data_byte();`. -/
def recvBytes : ℕ → Driver (List UInt8)
  | 0 => return []
  | n + 1 => do
      let b ← recvDataByte
      let bytes ← recvBytes n
      return b :: bytes

/-- `while (recv_data_byte() != b);`. -/
def waitFor (b : UInt8) : Driver UInt8 := loopUntil recvDataByte (· == b)

/-- The format `%.2x`. -/
def hex2 (b : UInt8) : String :=
  String.ofList [Nat.digitChar (b.toNat / 16), Nat.digitChar (b.toNat % 16)]

/-- The loop of `sd_exec_cmd` that polls for the status. -/
def pollReply (cmd : List UInt8) : ℕ → Driver UInt8
  | 0 => throw (.fatal ("SD card not responding cmd" ++ toString (cmd.headD 0 ^^^ 0x40)))
  | n + 1 => do
      let reply ← recvDataByte
      if reply ≠ 0xFF then return reply else pollReply cmd n

/-- `sd_exec_cmd`. -/
def sdExecCmd (cmd : List UInt8) : Driver UInt8 := do
  sendBytes cmd
  pollReply cmd 8000

/-- `sd_exec_acmd`. -/
def sdExecAcmd (cmd : List UInt8) : Driver UInt8 := do
  let _ ← waitFor 0xFF
  let _ ← sdExecCmd [0x77, 0x00, 0x00, 0x00, 0x00, 0xFF]
  let _ ← waitFor 0xFF
  sdExecCmd cmd

/-- `enum sd_type`. -/
inductive SdType
  | sd1
  | sd2
  | sdhc
  | unknown
  deriving DecidableEq

/-- The part of `sdinit` with cmd8. -/
def checkVersion : Driver SdType := do
  let reply ← sdExecCmd [0x48, 0x00, 0x00, 0x01, 0xAA, 0x87]
  if reply &&& 0x04 ≠ 0 then return .sd1
  let payload ← recvBytes 4
  if beNat payload % 0x1000 ≠ 0x1AA then throw (.fatal "Fail to check SD card type")
  return .sd2

/-- The first argument byte of acmd41: whether the host supports cards of high capacity. -/
def hcs (type : SdType) : UInt8 := if type = .sd2 then 0x40 else 0x00

/-- The part of `sdinit` with acmd41. -/
def powerUp (type : SdType) : Driver UInt8 :=
  loopUntil (sdExecAcmd [0x69, hcs type, 0x00, 0x00, 0x00, 0xFF]) (· == 0)

/-- The part of `sdinit` with cmd58. -/
def checkCapacity : Driver SdType := do
  let _ ← sdExecCmd [0x7A, 0x00, 0x00, 0x00, 0x00, 0xFF]
  let payload ← recvBytes 4
  let _ ← waitFor 0xFF
  return if payload.headD 0 &&& 0xC0 = 0xC0 then .sdhc else .sd2

/-- `sdinit`: the result is the value it leaves in `SD_CARD_TYPE`. -/
def sdinit : Driver SdType := do
  sendBytes (List.replicate 1000 0xFF)
  let reply ← sdExecCmd [0x40, 0x00, 0x00, 0x00, 0x00, 0x95]
  let _ ← if reply ≠ 0x01 then waitFor 0x01 else pure reply
  let _ ← waitFor 0xFF
  let type ← checkVersion
  let _ ← waitFor 0xFF
  let _ ← powerUp type
  let _ ← waitFor 0xFF
  let _ ← sdExecCmd [0x50, 0x00, 0x00, 0x02, 0x00, 0xFF]
  let _ ← waitFor 0xFF
  if type = .sd2 then checkCapacity else return type

/-- The argument that `single_read` and `single_write` send for a block. -/
def argOf (type : SdType) (offset : ℕ) : ℕ :=
  if type = .sd2 then offset * 512 % 2 ^ 32 else offset

/-- The four bytes of a 32-bit number, most significant byte first. -/
def beBytes (n : ℕ) : List UInt8 :=
  [UInt8.ofNat (n / 2 ^ 24), UInt8.ofNat (n / 2 ^ 16), UInt8.ofNat (n / 2 ^ 8), UInt8.ofNat n]

/-- `single_read`: the result is the block it leaves at `dst`. -/
def singleRead (type : SdType) (offset : ℕ) : Driver Block := do
  let _ ← waitFor 0xFF
  let reply ← sdExecCmd (0x51 :: (beBytes (argOf type offset) ++ [0xFF]))
  if reply ≠ 0 then throw (.fatal ("SD card replies cmd17 with status 0x" ++ hex2 reply))
  let _ ← waitFor 0xFE
  let bytes ← recvBytes 512
  let _ ← recvDataByte
  let _ ← recvDataByte
  return blockOf bytes

/-- `single_write`. -/
def singleWrite (type : SdType) (offset : ℕ) (src : Block) : Driver Unit := do
  let _ ← waitFor 0xFF
  let reply ← sdExecCmd (0x58 :: (beBytes (argOf type offset) ++ [0xFF]))
  if reply ≠ 0 then throw (.fatal ("SD card replies cmd24 with status " ++ hex2 reply))
  sendBytes (0xFE :: (src.bytes ++ [0xFF, 0xFF]))
  let reply ← loopUntil recvDataByte (· != 0xFF)
  if reply &&& 0x1F ≠ 0x05 then throw (.fatal ("SD card write ack with status 0x" ++ hex2 reply))

/-- `sdread`: the result is the blocks it leaves at `dst`. -/
def sdread (type : SdType) (offset : ℕ) : ℕ → Driver (List Block)
  | 0 => return []
  | n + 1 => do
      let blocks ← sdread type offset n
      let b ← singleRead type ((offset + n) % 2 ^ 32)
      return blocks ++ [b]

/-- `sdwrite`, for the blocks at `src`. -/
def sdwrite (type : SdType) (offset : ℕ) (src : ℕ → Block) : ℕ → Driver Unit
  | 0 => return ()
  | n + 1 => do
      sdwrite type offset src n
      singleWrite type ((offset + n) % 2 ^ 32) (src n)

/-! ### Bytes from the card -/

/-- The same card, with other bytes to send. -/
def Card.sending (c : Card) (out : List UInt8) : Card := { c with out := out }

theorem takes_sendDataByte (c : Card) (b : UInt8) :
    Takes (sendDataByte b) c (c.exchange b).1 (c.exchange b).2 :=
  takes_exchange (fun c : Card => c.exchange b) c

theorem takes_recvDataByte (c : Card) (x : UInt8) (out : List UInt8) :
    Takes recvDataByte (c.sending (x :: out)) x (c.sending out) :=
  takes_sendDataByte (c.sending (x :: out)) 0xFF

/-- The bytes that the card sends are received in their order. -/
theorem takes_recvBytes (c : Card) (bytes out : List UInt8) :
    Takes (recvBytes bytes.length) (c.sending (bytes ++ out)) bytes (c.sending out) := by
  induction bytes with
  | nil => exact Takes.pure _ _
  | cons b bytes ih =>
      exact (takes_recvDataByte c b (bytes ++ out)).bind (ih.bind (Takes.pure _ _))

/-- A loop that polls ends at the first byte of the kind it waits for. -/
theorem takes_loopUntil (c : Card) {p : UInt8 → Bool} {b : UInt8} (hb : p b = true)
    {bytes : List UInt8} (hbytes : ∀ x ∈ bytes, p x = false) (out : List UInt8) :
    Takes (loopUntil recvDataByte p) (c.sending (bytes ++ b :: out)) b (c.sending out) := by
  induction bytes with
  | nil => exact (takes_recvDataByte c b out).loopUntil_done hb
  | cons x bytes ih =>
      obtain ⟨hx, hrest⟩ := List.forall_mem_cons.1 hbytes
      exact (takes_recvDataByte c x (bytes ++ b :: out)).loopUntil_next hx (ih hrest)

theorem takes_waitFor (c : Card) {b : UInt8} {bytes : List UInt8} (hb : b ∉ bytes)
    (out : List UInt8) : Takes (waitFor b) (c.sending (bytes ++ b :: out)) b (c.sending out) := by
  refine takes_loopUntil c (p := (· == b)) (beq_self_eq_true b) ?_ out
  intro x hx
  exact beq_false_of_ne fun h => hb (h ▸ hx)

/-- The status is found if it comes in time. -/
theorem takes_pollReply (c : Card) (cmd : List UInt8) {r : UInt8} (hr : r ≠ 0xFF)
    (out : List UInt8) {k n : ℕ} (hk : k < n) :
    Takes (pollReply cmd n) (c.sending (List.replicate k 0xFF ++ r :: out)) r (c.sending out) := by
  induction n generalizing k with
  | zero => exact absurd hk (by omega)
  | succ n ih =>
      rw [pollReply]
      cases k with
      | zero =>
          refine (takes_recvDataByte c r out).bind ?_
          rw [if_pos hr]
          exact Takes.pure _ _
      | succ k =>
          refine (takes_recvDataByte c 0xFF (List.replicate k 0xFF ++ r :: out)).bind ?_
          rw [if_neg (by simp)]
          exact ih (by omega)

/-! ### Bytes to the card -/

/-- The card with these contents waits for a command. -/
structure Card.Quiet (c : Card) (m : Core) : Prop where
  core : c.core = m
  input : c.input = .command []
  out : c.out = []

/-- The card with these contents sends some bytes and is busy for a while; then it waits for a
command. -/
structure Card.Sends (c : Card) (m : Core) (bytes : List UInt8) : Prop where
  core : c.core = m
  input : c.input = .command []
  out : ∃ busy, 0xFF ∉ busy ∧ c.out = bytes ++ busy

theorem Card.Quiet.sends {c : Card} {m : Core} (h : c.Quiet m) : c.Sends m [] :=
  ⟨h.core, h.input, [], List.not_mem_nil, h.out⟩

theorem Card.sending_of_out {c : Card} {out : List UInt8} (h : c.out = out) :
    c = c.sending out := by
  rw [← h]
  rfl

theorem Card.Quiet.exchange {c : Card} {m : Core} (h : c.Quiet m) :
    c.exchange 0xFF = (0xFF, c) := by
  rw [Card.exchange, h.out, Card.receive, h.input]
  rfl

/-- A card that waits for a command ignores 0xFF. -/
theorem Card.Quiet.takes_idle {c : Card} {m : Core} (h : c.Quiet m) (n : ℕ) :
    Takes (sendBytes (List.replicate n 0xFF)) c () c := by
  have hone := takes_sendDataByte c 0xFF
  rw [h.exchange] at hone
  induction n with
  | zero => exact Takes.pure _ _
  | succ n ih => exact hone.bind ih

/-- `while (recv_data_byte() != 0xFF);` ends when the card is no longer busy. -/
theorem Card.Sends.takes_waitFor {c : Card} {m : Core} (h : c.Sends m []) :
    ∃ c', Takes (waitFor 0xFF) c 0xFF c' ∧ c'.Quiet m := by
  obtain ⟨busy, hbusy, hout⟩ := h.out
  have hquiet : (c.sending []).Quiet m := ⟨h.core, h.input, rfl⟩
  refine ⟨c.sending [], ?_, hquiet⟩
  rw [Card.sending_of_out hout, List.nil_append]
  -- The byte that ends the loop is the one that comes when nothing is left to send.
  have hlast : Takes (waitFor 0xFF) (c.sending []) 0xFF (c.sending []) := by
    have hone := takes_sendDataByte (c.sending []) 0xFF
    rw [hquiet.exchange] at hone
    exact hone.loopUntil_done rfl
  clear hout
  induction busy with
  | nil => exact hlast
  | cons x busy ih =>
      obtain ⟨hx, hrest⟩ := List.ne_and_not_mem_of_not_mem_cons hbusy
      exact (takes_recvDataByte c x busy).loopUntil_next (beq_false_of_ne hx.symm) (ih hrest)

/-- **A card that collects bytes**, and acts when it has `n` of them. -/
theorem takes_sendBytes_collect {n : ℕ} {g : List UInt8 → Input}
    {f : Card → List UInt8 → Card}
    (hmore : ∀ (c : Card) (got : List UInt8) (x : UInt8), c.input = g got →
      got.length + 1 < n → c.receive x = { c with input := g (got ++ [x]) })
    (hlast : ∀ (c : Card) (got : List UInt8) (x : UInt8), c.input = g got →
      got.length + 1 = n → c.receive x = f c (got ++ [x]))
    (hkeep : ∀ (c : Card) (i : Input) (bytes : List UInt8),
      f { c with input := i } bytes = f c bytes)
    {c : Card} (hout : c.out = []) {got bytes : List UInt8} (hin : c.input = g got)
    (hne : bytes ≠ []) (hlen : got.length + bytes.length = n) :
    Takes (sendBytes bytes) c () (f c (got ++ bytes)) := by
  induction bytes generalizing c got with
  | nil => exact absurd rfl hne
  | cons x bytes ih =>
      have hone := takes_sendDataByte c x
      rw [Card.exchange, hout] at hone
      rw [List.length_cons] at hlen
      by_cases hnil : bytes = []
      · subst hnil
        rw [hlast c got x hin hlen] at hone
        exact hone.bind (Takes.pure _ _)
      · have hpos := List.length_pos_iff.2 hnil
        rw [hmore c got x hin (by omega)] at hone
        have hlen' : (got ++ [x]).length + bytes.length = n := by
          rw [List.length_append, List.length_singleton]
          omega
        have hnext := ih (c := { c with input := g (got ++ [x]) }) hout rfl hnil hlen'
        rw [hkeep, ← List.append_cons] at hnext
        exact hone.bind hnext

/-- The remaining bytes of a command. -/
theorem takes_sendBytes_command {c : Card} (hout : c.out = []) {b : UInt8} {got : List UInt8}
    (hin : c.input = .command (b :: got)) {bytes : List UInt8} (hne : bytes ≠ [])
    (hlen : got.length + bytes.length = 5) :
    Takes (sendBytes bytes) c () (c.execute (b :: (got ++ bytes))) := by
  refine takes_sendBytes_collect (g := fun got => .command (b :: got))
    (f := fun c bytes => c.execute (b :: bytes)) ?_ ?_ (fun _ _ _ => rfl) hout hin hne hlen
  · intro c got x hin hlt
    rw [Card.receive, hin]
    exact if_pos hlt
  · intro c got x hin heq
    rw [Card.receive, hin]
    exact if_neg heq.not_lt

/-- The remaining bytes of a data packet. -/
theorem takes_sendBytes_data {c : Card} (hout : c.out = []) {k : ℕ} {got : List UInt8}
    (hin : c.input = .data k got) {bytes : List UInt8} (hne : bytes ≠ [])
    (hlen : got.length + bytes.length = 514) :
    Takes (sendBytes bytes) c () (c.store k (got ++ bytes)) := by
  refine takes_sendBytes_collect (g := .data k) (f := fun c bytes => c.store k bytes) ?_ ?_
    (fun _ _ _ => rfl) hout hin hne hlen
  · intro c got x hin hlt
    rw [Card.receive, hin]
    exact if_pos (by omega)
  · intro c got x hin heq
    rw [Card.receive, hin]
    exact if_neg (by omega)

/-! ### Commands -/

/-- Six bytes that a card takes for a command. -/
def IsCommand (cmd : List UInt8) : Prop := cmd.length = 6 ∧ cmd.headD 0 &&& 0xC0 = 0x40

/-- A card that waits for a command carries it out when it has all of its bytes. -/
theorem Card.Quiet.takes_sendBytes {c : Card} {m : Core} (h : c.Quiet m) {cmd : List UInt8}
    (hcmd : IsCommand cmd) : Takes (sendBytes cmd) c () (c.execute cmd) := by
  obtain ⟨hlen, hfirst⟩ := hcmd
  cases cmd with
  | nil => exact absurd hlen (by simp)
  | cons b rest =>
      have hone := takes_sendDataByte c b
      rw [Card.exchange, h.out, Card.receive, h.input] at hone
      simp only [List.headD_cons] at hfirst
      simp only [hfirst, if_true] at hone
      have hne : rest ≠ [] := by
        rintro rfl
        exact absurd hlen (by simp)
      refine hone.bind ?_
      exact takes_sendBytes_command (c := { c with input := .command [b] }) h.out rfl hne
        (by simpa using hlen)

/-- A command that is answered by a status. -/
theorem Card.Quiet.takes_status {c : Card} {m m' : Core} (h : c.Quiet m) {cmd : List UInt8}
    (hcmd : IsCommand cmd) {r : UInt8} {payload : List UInt8}
    (hex : m.execute cmd = (m', .status r payload)) (hr : r ≠ 0xFF) :
    ∃ c', Takes (sdExecCmd cmd) c r c' ∧ c'.Sends m' payload := by
  have hsent := h.takes_sendBytes hcmd
  rw [Card.execute, h.core, hex] at hsent
  have hpoll := takes_pollReply (c.answer m' (.status r payload)) cmd hr
    (payload ++ (c.delays 0).busy) (c.delays 0).reply_lt
  exact ⟨_, hsent.bind hpoll, rfl, rfl, _, (c.delays 0).busy_ne, rfl⟩

/-- What follows a status. -/
theorem Card.Sends.takes_payload {c : Card} {m : Core} {payload : List UInt8}
    (h : c.Sends m payload) :
    ∃ c', Takes (recvBytes payload.length) c payload c' ∧ c'.Sends m [] := by
  obtain ⟨busy, hbusy, hout⟩ := h.out
  refine ⟨c.sending busy, ?_, h.core, h.input, busy, hbusy, rfl⟩
  have hrecv := takes_recvBytes c payload busy
  rw [← Card.sending_of_out hout] at hrecv
  exact hrecv

/-! ### Initialisation -/

/-- What `sdinit` knows of a card before cmd58. -/
def Kind.version : Kind → SdType
  | .version1 => .sd1
  | .standard2 => .sd2
  | .high2 => .sd2

/-- The type of a card. -/
def Kind.type : Kind → SdType
  | .version1 => .sd1
  | .standard2 => .sd2
  | .high2 => .sdhc

/-- cmd8 tells version 1 from version 2. -/
theorem takes_checkVersion {c : Card} {m : Core} (h : c.Quiet m) (hidle : m.idle = true) :
    ∃ c', Takes checkVersion c m.kind.version c' ∧ c'.Sends { m with app := false } [] := by
  have hcmd : IsCommand [0x48, 0x00, 0x00, 0x01, 0xAA, 0x87] := ⟨rfl, rfl⟩
  by_cases hkind : m.kind = .version1
  · have hex : m.execute [0x48, 0x00, 0x00, 0x01, 0xAA, 0x87] =
        ({ m with app := false }, .status 0x05 []) := by
      change (if m.kind = .version1 then _ else _) = _
      rw [if_pos hkind, Core.status, hidle]
      rfl
    obtain ⟨c', htakes, hsends⟩ := h.takes_status hcmd hex (by decide)
    refine ⟨c', htakes.bind ?_, hsends⟩
    rw [if_pos (by decide), hkind]
    exact Takes.pure _ _
  · have hex : m.execute [0x48, 0x00, 0x00, 0x01, 0xAA, 0x87] =
        ({ m with app := false }, .status 0x01 [0x00, 0x00, 0x01, 0xAA]) := by
      change (if m.kind = .version1 then _ else _) = _
      rw [if_neg hkind, Core.status, hidle]
      rfl
    obtain ⟨c', htakes, hsends⟩ := h.takes_status hcmd hex (by decide)
    obtain ⟨c'', hpayload, hsends'⟩ := hsends.takes_payload
    have hversion : m.kind.version = .sd2 := by
      cases hk : m.kind with
      | version1 => exact absurd hk hkind
      | standard2 => rfl
      | high2 => rfl
    refine ⟨c'', htakes.bind ?_, hsends'⟩
    rw [if_neg (by decide), hversion]
    refine hpayload.bind ?_
    rw [if_neg (by decide)]
    exact Takes.pure _ _

/-- The two commands of acmd41, on a card that is not ready yet. -/
theorem execute_acmd41 (m : Core) (hidle : m.idle = true) :
    ({ m with app := true } : Core).execute [0x69, hcs m.kind.version, 0x00, 0x00, 0x00, 0xFF] =
      ({ m with app := false, idle := m.tries != 0, tries := m.tries - 1 },
        .status (if m.tries = 0 then 0x00 else 0x01) []) := by
  have hhigh : ¬ (m.kind = .high2 ∧ hcs m.kind.version &&& 0x40 = 0) := by
    rintro ⟨hkind, hbit⟩
    rw [hkind] at hbit
    exact absurd hbit (by decide)
  have hindex : ((0x69 : UInt8) &&& 0x3F).toNat = 41 := rfl
  simp only [Core.execute, List.headD_cons, hindex]
  change (if m.kind = .high2 ∧ hcs m.kind.version &&& 0x40 = 0 then _
    else if m.tries = 0 then _ else _) = _
  rw [if_neg hhigh]
  by_cases htries : m.tries = 0
  · rw [if_pos htries, if_pos htries, htries]
    rfl
  · rw [if_neg htries, if_neg htries, hidle, (bne_iff_ne).2 htries]

/-- One round of acmd41. -/
theorem takes_acmd41 {c : Card} {m : Core} (h : c.Sends m []) (hidle : m.idle = true) :
    ∃ c', Takes (sdExecAcmd [0x69, hcs m.kind.version, 0x00, 0x00, 0x00, 0xFF]) c
        (if m.tries = 0 then 0x00 else 0x01) c' ∧
      c'.Sends { m with app := false, idle := m.tries != 0, tries := m.tries - 1 } [] := by
  obtain ⟨c₁, hwait, hquiet⟩ := h.takes_waitFor
  have hstatus : m.status ≠ 0xFF := by
    rw [Core.status, hidle]
    decide
  have happ : m.execute [0x77, 0x00, 0x00, 0x00, 0x00, 0xFF] =
      ({ m with app := true }, .status m.status []) := rfl
  obtain ⟨c₂, hcmd55, hsends⟩ := hquiet.takes_status ⟨rfl, rfl⟩ happ hstatus
  obtain ⟨c₃, hwait', hquiet'⟩ := hsends.takes_waitFor
  have hreply : (if m.tries = 0 then (0x00 : UInt8) else 0x01) ≠ 0xFF := by split <;> decide
  obtain ⟨c₄, hcmd41, hsends'⟩ :=
    hquiet'.takes_status ⟨rfl, by rw [List.headD_cons]; rfl⟩ (execute_acmd41 m hidle) hreply
  exact ⟨c₄, hwait.bind (hcmd55.bind (hwait'.bind hcmd41)), hsends'⟩

/-- **`while (sd_exec_acmd(acmd41));` ends**: each round uses up one of the tries. -/
theorem takes_powerUp {c : Card} {m : Core} (h : c.Sends m []) (hidle : m.idle = true) :
    ∃ c', Takes (powerUp m.kind.version) c 0x00 c' ∧
      c'.Sends { m with app := false, idle := false, tries := 0 } [] := by
  obtain ⟨c', hround, hsends⟩ := takes_acmd41 h hidle
  induction htries : m.tries generalizing c c' m with
  | zero =>
      rw [htries] at hround hsends
      exact ⟨c', hround.loopUntil_done rfl, hsends⟩
  | succ n ih =>
      rw [htries] at hround hsends
      obtain ⟨c'', hround', hsends'⟩ := takes_acmd41 hsends rfl
      obtain ⟨c₃, hloop, hsends₃⟩ := ih hsends rfl c'' hround' hsends' rfl
      exact ⟨c₃, hround.loopUntil_next rfl hloop, hsends₃⟩

/-- The two highest bits of the operation conditions register. -/
theorem ccs_bits (b : UInt8) :
    (0xC0 ||| (b &&& 0x3F)) &&& 0xC0 = 0xC0 ∧ (0x80 ||| (b &&& 0x3F)) &&& 0xC0 = 0x80 := by
  have hbits : ∀ b : BitVec 8,
      (0xC0 ||| (b &&& 0x3F)) &&& 0xC0 = 0xC0 ∧ (0x80 ||| (b &&& 0x3F)) &&& 0xC0 = 0x80 := by
    decide
  obtain ⟨hhigh, hstandard⟩ := hbits b.toBitVec
  exact ⟨UInt8.eq_of_toBitVec_eq hhigh, UInt8.eq_of_toBitVec_eq hstandard⟩

/-- cmd58 tells high capacity from standard capacity. -/
theorem takes_checkCapacity {c : Card} {m : Core} (h : c.Quiet m)
    (hkind : m.kind.version = .sd2) (hidle : m.idle = false) :
    ∃ c', Takes checkCapacity c m.kind.type c' ∧ c'.Quiet { m with app := false } := by
  have hex : m.execute [0x7A, 0x00, 0x00, 0x00, 0x00, 0xFF] =
      ({ m with app := false }, .status 0x00
        [(if m.kind = .high2 then 0xC0 else 0x80) ||| (m.ocr &&& 0x3F), 0xFF, 0x80, 0x00]) := by
    change (_, Answer.status m.status _) = _
    rw [Core.status, hidle]
    rfl
  obtain ⟨c₁, htakes, hsends⟩ := h.takes_status ⟨rfl, rfl⟩ hex (by decide)
  obtain ⟨c₂, hpayload, hsends'⟩ := hsends.takes_payload
  obtain ⟨c₃, hwait, hquiet⟩ := hsends'.takes_waitFor
  refine ⟨c₃, htakes.bind (hpayload.bind (hwait.bind ?_)), hquiet⟩
  have hbits := ccs_bits m.ocr
  cases hk : m.kind with
  | version1 =>
      rw [hk] at hkind
      exact absurd hkind (by decide)
  | standard2 =>
      simp only [List.headD_cons, reduceCtorEq, if_false, hbits.2]
      exact Takes.pure _ _
  | high2 =>
      simp only [List.headD_cons, if_true, hbits.1]
      exact Takes.pure _ _

/-- A card that is ready for reads and writes. -/
structure Card.Ready (c : Card) (m : Core) : Prop where
  sends : c.Sends m []
  idle : m.idle = false
  app : m.app = false

/-- **Initialisation**: the type of the card is found, the card is ready, and no block has changed.
-/
theorem takes_sdinit {c : Card} {m : Core} (h : c.Quiet m) :
    ∃ c', Takes sdinit c m.kind.type c' ∧
      c'.Ready { m with app := false, idle := false, tries := 0 } := by
  have hreset : m.execute [0x40, 0x00, 0x00, 0x00, 0x00, 0x95] =
      ({ m with app := false, idle := true }, .status 0x01 []) := rfl
  obtain ⟨c₁, hcmd0, hsends₁⟩ := h.takes_status ⟨rfl, rfl⟩ hreset (by decide)
  obtain ⟨c₂, hwait₂, hquiet₂⟩ := hsends₁.takes_waitFor
  obtain ⟨c₃, hversion, hsends₃⟩ := takes_checkVersion hquiet₂ rfl
  obtain ⟨c₄, hwait₄, hquiet₄⟩ := hsends₃.takes_waitFor
  obtain ⟨c₅, hpower, hsends₅⟩ := takes_powerUp hquiet₄.sends rfl
  obtain ⟨c₆, hwait₆, hquiet₆⟩ := hsends₅.takes_waitFor
  have hlength : ({ m with app := false, idle := false, tries := 0 } : Core).execute
      [0x50, 0x00, 0x00, 0x02, 0x00, 0xFF] =
        ({ m with app := false, idle := false, tries := 0 }, .status 0x00 []) := rfl
  obtain ⟨c₇, hcmd16, hsends₇⟩ := hquiet₆.takes_status ⟨rfl, rfl⟩ hlength (by decide)
  obtain ⟨c₈, hwait₈, hquiet₈⟩ := hsends₇.takes_waitFor
  have hlast : ∃ c', Takes (if m.kind.version = .sd2 then checkCapacity else pure m.kind.version) c₈
      m.kind.type c' ∧ c'.Quiet { m with app := false, idle := false, tries := 0 } := by
    by_cases hkind : m.kind.version = .sd2
    · rw [if_pos hkind]
      exact takes_checkCapacity hquiet₈ hkind rfl
    · rw [if_neg hkind]
      refine ⟨c₈, ?_, hquiet₈⟩
      cases hk : m.kind with
      | version1 => exact Takes.pure _ _
      | standard2 => exact absurd (congrArg Kind.version hk) hkind
      | high2 => exact absurd (congrArg Kind.version hk) hkind
  obtain ⟨c₉, hcapacity, hquiet₉⟩ := hlast
  refine ⟨c₉, ?_, hquiet₉.sends, rfl, rfl⟩
  refine (h.takes_idle 1000).bind (hcmd0.bind ?_)
  rw [if_neg (by simp)]
  refine (Takes.pure _ _).bind (hwait₂.bind (hversion.bind (hwait₄.bind ?_)))
  exact hpower.bind (hwait₆.bind (hcmd16.bind (hwait₈.bind hcapacity)))

/-! ### One block -/

/-- The bytes of a number stand for it. -/
theorem beNat_beBytes {n : ℕ} (h : n < 2 ^ 32) : beNat (beBytes n) = n := by
  simp only [beNat, beBytes, List.foldl_cons, List.foldl_nil, UInt8.toNat_ofNat']
  omega

/-- The commands that carry an address. -/
theorem isCommand_address {b : UInt8} (hb : b &&& 0xC0 = 0x40) (n : ℕ) :
    IsCommand (b :: (beBytes n ++ [0xFF])) := ⟨rfl, hb⟩

theorem argOf_lt {type : SdType} {offset : ℕ} (h : offset < 2 ^ 32) :
    argOf type offset < 2 ^ 32 := by
  rw [argOf]
  split
  · exact Nat.mod_lt _ (by decide)
  · exact h

/-- The argument of a read or write command reaches the card. -/
theorem take_address (b : UInt8) {n : ℕ} (h : n < 2 ^ 32) :
    beNat (((b :: (beBytes n ++ [0xFF])).drop 1).take 4) = n := by
  change beNat (beBytes n) = n
  exact beNat_beBytes h

/-- cmd17 on a card that is ready. -/
theorem Core.execute_read {m : Core} (hidle : m.idle = false) {n : ℕ} (hn : n < 2 ^ 32) :
    m.execute (0x51 :: (beBytes n ++ [0xFF])) =
      match m.address n with
      | .error e => ({ m with app := false }, .status e [])
      | .ok k => ({ m with app := false }, .block (m.blocks k)) := by
  have hindex : ((0x51 : UInt8) &&& 0x3F).toNat = 17 := rfl
  simp only [Core.execute, List.headD_cons, hindex, take_address 0x51 hn, hidle, Bool.false_eq_true,
    if_false]

/-- cmd24 on a card that is ready. -/
theorem Core.execute_write {m : Core} (hidle : m.idle = false) {n : ℕ} (hn : n < 2 ^ 32) :
    m.execute (0x58 :: (beBytes n ++ [0xFF])) =
      match m.address n with
      | .error e => ({ m with app := false }, .status e [])
      | .ok k => ({ m with app := false }, .receive k) := by
  have hindex : ((0x58 : UInt8) &&& 0x3F).toNat = 24 := rfl
  simp only [Core.execute, List.headD_cons, hindex, take_address 0x58 hn, hidle, Bool.false_eq_true,
    if_false]

theorem blockOf_bytes (b : Block) (rest : List UInt8) : blockOf (b.bytes ++ rest) = b := by
  funext i
  have hi : i.val < b.bytes.length := by
    rw [Block.length_bytes]
    exact i.isLt
  rw [blockOf, List.getD_append _ _ _ _ hi, List.getD_eq_getElem _ _ hi]
  exact List.getElem_ofFn _

section OneBlock

variable {c : Card} {m : Core} {type : SdType} {offset : ℕ}

/-- **A block is read**: the one that the argument names. -/
theorem takes_singleRead (h : c.Ready m) (hoff : offset < 2 ^ 32) {k : ℕ}
    (hk : m.address (argOf type offset) = .ok k) :
    ∃ c', Takes (singleRead type offset) c (m.blocks k) c' ∧ c'.Ready m := by
  obtain ⟨c₁, hwait, hquiet⟩ := h.sends.takes_waitFor
  have hsent := hquiet.takes_sendBytes (isCommand_address (b := 0x51) rfl (argOf type offset))
  have happ : { m with app := false } = m := by
    rw [← h.app]
  rw [Card.execute, hquiet.core, Core.execute_read h.idle (argOf_lt hoff), hk, happ] at hsent
  let d := c₁.delays 0
  let c₂ := c₁.answer m (.block (m.blocks k))
  have hpoll := takes_pollReply c₂ (0x51 :: (beBytes (argOf type offset) ++ [0xFF])) (r := 0x00)
    (by decide) (d.token ++ 0xFE :: ((m.blocks k).bytes ++
      ([d.checksum.1, d.checksum.2] ++ d.busy))) d.reply_lt
  have htoken := takes_waitFor c₂ d.token_ne ((m.blocks k).bytes ++
      ([d.checksum.1, d.checksum.2] ++ d.busy))
  have hdata := takes_recvBytes c₂ (m.blocks k).bytes
    ([d.checksum.1, d.checksum.2] ++ d.busy)
  rw [Block.length_bytes] at hdata
  refine ⟨c₂.sending d.busy, ?_, ⟨rfl, rfl, d.busy, d.busy_ne, rfl⟩, h.idle, h.app⟩
  refine hwait.bind ((hsent.bind hpoll).bind ?_)
  rw [if_neg (by simp)]
  refine htoken.bind (hdata.bind ?_)
  refine (takes_recvDataByte c₂ _ _).bind ((takes_recvDataByte c₂ _ _).bind ?_)
  have hblock := blockOf_bytes (m.blocks k) []
  rw [List.append_nil] at hblock
  rw [hblock]
  exact Takes.pure _ _

/-- The acknowledgement of a data packet. -/
theorem ack_bits (b : UInt8) :
    ((b &&& 0xE0) ||| 0x05) &&& 0x1F = 0x05 ∧ (b &&& 0xE0) ||| 0x05 ≠ 0xFF := by
  have hbits : ∀ b : BitVec 8, ((b &&& 0xE0) ||| 0x05) &&& 0x1F = 0x05 := by decide
  have hlow : ((b &&& 0xE0) ||| 0x05) &&& 0x1F = 0x05 :=
    UInt8.eq_of_toBitVec_eq (hbits b.toBitVec)
  refine ⟨hlow, ?_⟩
  intro hall
  rw [hall] at hlow
  exact absurd hlow (by decide)

/-- **A block is written**: the one that the argument names. -/
theorem takes_singleWrite (h : c.Ready m) (hoff : offset < 2 ^ 32) {k : ℕ}
    (hk : m.address (argOf type offset) = .ok k) (src : Block) :
    ∃ c', Takes (singleWrite type offset src) c () c' ∧
      c'.Ready { m with blocks := update m.blocks k src } := by
  obtain ⟨c₁, hwait, hquiet⟩ := h.sends.takes_waitFor
  have hsent := hquiet.takes_sendBytes (isCommand_address (b := 0x58) rfl (argOf type offset))
  have happ : { m with app := false } = m := by
    rw [← h.app]
  rw [Card.execute, hquiet.core, Core.execute_write h.idle (argOf_lt hoff), hk, happ] at hsent
  let c₂ := c₁.answer m (.receive k)
  have hpoll := takes_pollReply c₂ (0x58 :: (beBytes (argOf type offset) ++ [0xFF])) (r := 0x00)
    (by decide) [] (c₁.delays 0).reply_lt
  -- The token, then the block and the checksum.
  have htoken : Takes (sendDataByte 0xFE) (c₂.sending []) 0xFF
      { c₂.sending [] with input := .data k [] } := takes_sendDataByte (c₂.sending []) 0xFE
  have hlen : (src.bytes ++ [0xFF, 0xFF]).length = 514 := by
    rw [List.length_append, Block.length_bytes]
    rfl
  have hne : src.bytes ++ [0xFF, 0xFF] ≠ [] := by simp
  have hdata := takes_sendBytes_data (c := { c₂.sending [] with input := .data k [] }) rfl rfl hne
    (by rw [hlen]; rfl)
  rw [List.nil_append] at hdata
  let c₃ := ({ c₂.sending [] with input := .data k [] } : Card).store k (src.bytes ++ [0xFF, 0xFF])
  have hpacket : Takes (sendBytes (0xFE :: (src.bytes ++ [0xFF, 0xFF]))) (c₂.sending []) () c₃ := by
    rw [sendBytes]
    exact htoken.bind hdata
  let d := c₂.delays 0
  obtain ⟨hack, hne'⟩ := ack_bits d.ackHigh
  have hwaited : Takes (loopUntil recvDataByte (· != 0xFF)) c₃ ((d.ackHigh &&& 0xE0) ||| 0x05)
      (c₃.sending d.busy) := by
    refine takes_loopUntil c₃ (p := (· != 0xFF)) (bne_iff_ne.2 hne') ?_ d.busy
    intro x hx
    rw [List.eq_of_mem_replicate hx]
    rfl
  have hcore : c₃.core = { m with blocks := update m.blocks k src } := by
    change ({ m with blocks := update m.blocks k (blockOf _) } : Core) = _
    rw [blockOf_bytes]
  refine ⟨c₃.sending d.busy, ?_, ⟨hcore, rfl, d.busy, d.busy_ne, rfl⟩, h.idle, h.app⟩
  refine hwait.bind ((hsent.bind hpoll).bind ?_)
  rw [if_neg (by simp)]
  refine hpacket.bind (hwaited.bind ?_)
  rw [if_neg (by simp [hack])]
  exact Takes.pure _ _

/-- A write to an address that the card refuses stops the machine. -/
theorem fails_singleWrite (h : c.Ready m) (hoff : offset < 2 ^ 32) {e : UInt8}
    (he : m.address (argOf type offset) = .error e) (hne : e ≠ 0xFF) (hne' : e ≠ 0) (src : Block) :
    Fails (singleWrite type offset src) c := by
  obtain ⟨c₁, hwait, hquiet⟩ := h.sends.takes_waitFor
  have hex : m.execute (0x58 :: (beBytes (argOf type offset) ++ [0xFF])) =
      ({ m with app := false }, .status e []) := by
    rw [Core.execute_write h.idle (argOf_lt hoff), he]
  obtain ⟨c₂, hcmd, -⟩ := hquiet.takes_status (isCommand_address rfl _) hex hne
  refine hwait.bind_fails (hcmd.bind_fails ?_)
  rw [if_pos hne']
  exact (fails_throw _ _).bind

end OneBlock

/-! ### Ranges of blocks -/

/-- The blocks after the `n` blocks from `offset` on have been replaced. -/
def stored (blocks : ℕ → Block) (offset n : ℕ) (src : ℕ → Block) : ℕ → Block := fun k =>
  if offset ≤ k ∧ k < offset + n then src (k - offset) else blocks k

theorem stored_zero (blocks : ℕ → Block) (offset : ℕ) (src : ℕ → Block) :
    stored blocks offset 0 src = blocks := by
  funext k
  rw [stored, if_neg (by omega)]

theorem stored_succ (blocks : ℕ → Block) (offset n : ℕ) (src : ℕ → Block) :
    update (stored blocks offset n src) (offset + n) (src n) =
      stored blocks offset (n + 1) src := by
  funext k
  by_cases hk : k = offset + n
  · subst hk
    rw [update_self, stored, if_pos (by omega), Nat.add_sub_cancel_left]
  · rw [update_of_ne hk, stored, stored]
    exact if_congr (by omega) rfl rfl

section Ranges

variable {c : Card} {m : Core} {type : SdType} {offset n : ℕ}

/-- The arguments sent name the blocks of the range. -/
def Addressed (m : Core) (type : SdType) (offset n : ℕ) : Prop :=
  ∀ i < n, m.address (argOf type (offset + i)) = .ok (offset + i)

/-- **A range is read**, if the arguments name its blocks. -/
theorem takes_sdread (h : c.Ready m) (hlt : offset + n ≤ 2 ^ 32)
    (haddr : Addressed m type offset n) :
    ∃ c', Takes (sdread type offset n) c ((List.range n).map fun i => m.blocks (offset + i)) c' ∧
      c'.Ready m := by
  induction n with
  | zero => exact ⟨c, Takes.pure _ _, h⟩
  | succ n ih =>
      obtain ⟨c₁, hread, hready⟩ := ih (by omega) fun i hi => haddr i (by omega)
      obtain ⟨c₂, hlast, hready'⟩ := takes_singleRead hready (by omega) (haddr n (by omega))
      refine ⟨c₂, ?_, hready'⟩
      rw [sdread, List.range_succ, List.map_append, Nat.mod_eq_of_lt (by omega)]
      exact hread.bind (hlast.bind (Takes.pure _ _))

/-- **A range is written**, if the arguments name its blocks. -/
theorem takes_sdwrite (h : c.Ready m) (hlt : offset + n ≤ 2 ^ 32)
    (haddr : Addressed m type offset n) (src : ℕ → Block) :
    ∃ c', Takes (sdwrite type offset src n) c () c' ∧
      c'.Ready { m with blocks := stored m.blocks offset n src } := by
  induction n with
  | zero =>
      rw [stored_zero]
      exact ⟨c, Takes.pure _ _, h⟩
  | succ n ih =>
      obtain ⟨c₁, hwrite, hready⟩ := ih (by omega) fun i hi => haddr i (by omega)
      obtain ⟨c₂, hlast, hready'⟩ :=
        takes_singleWrite hready (by omega) (haddr n (by omega)) (src n)
      rw [stored_succ] at hready'
      refine ⟨c₂, ?_, hready'⟩
      rw [sdwrite, Nat.mod_eq_of_lt (by omega)]
      exact hwrite.bind hlast

/-- The arguments name the blocks on every card of version 2, and on a card of version 1 for the
block 0. -/
theorem addressed_of (hcap : offset + n ≤ m.capacity)
    (h : m.kind ≠ .version1 ∨ n = 0 ∨ offset = 0 ∧ n = 1) :
    Addressed m m.kind.type offset n := by
  intro i hi
  have hle := m.capacity_le
  rw [Core.address]
  cases hkind : m.kind with
  | version1 =>
      have hzero : offset + i = 0 := by
        rcases h with h | h | h
        · exact absurd hkind h
        · omega
        · omega
      rw [hzero]
      simp only [argOf, Kind.type, reduceCtorEq, if_false]
      rw [if_neg (by omega), if_pos (by omega)]
  | standard2 =>
      rw [hkind, Kind.maxBlocks] at hle
      simp only [argOf, Kind.type, if_true]
      have hmod : (offset + i) * 512 % 2 ^ 32 = (offset + i) * 512 := Nat.mod_eq_of_lt (by omega)
      rw [hmod, if_neg (by omega), Nat.mul_div_cancel _ (by decide), if_pos (by omega)]
  | high2 =>
      simp only [argOf, Kind.type, reduceCtorEq, if_false]
      rw [if_pos (by omega)]

end Ranges

/-! ### Which ranges are served -/

/-- The same card: reads and writes change its blocks only. -/
def Core.SameCard (m m' : Core) : Prop := m'.kind = m.kind ∧ m'.capacity = m.capacity

/-- **Reads and writes of a range do what they should**, on every card of a kind that has these
blocks: after `sdinit`, which leaves the blocks as they are, and in every state in which the card is
ready, a write changes exactly these blocks to `src`, and when they are `src` a read yields `src`.
-/
def Serves (kind : Kind) (offset nblock : ℕ) : Prop :=
  ∀ (c : Card) (m : Core), c.Quiet m → m.kind = kind → offset + nblock ≤ m.capacity →
    ∃ type c₁ m₁, Takes sdinit c type c₁ ∧ c₁.Ready m₁ ∧ m.SameCard m₁ ∧ m₁.blocks = m.blocks ∧
      ∀ (c₂ : Card) (m₂ : Core), c₂.Ready m₂ → m.SameCard m₂ → ∀ src : ℕ → Block,
        (∃ c₃, Takes (sdwrite type offset src nblock) c₂ () c₃ ∧
          c₃.Ready { m₂ with blocks := stored m₂.blocks offset nblock src }) ∧
        ((∀ i < nblock, m₂.blocks (offset + i) = src i) →
          ∃ c₃, Takes (sdread type offset nblock) c₂ ((List.range nblock).map src) c₃ ∧
            c₃.Ready m₂)

theorem Kind.maxBlocks_le (kind : Kind) : kind.maxBlocks ≤ 2 ^ 32 := by
  cases kind <;> decide

theorem serves_of {kind : Kind} {offset nblock : ℕ}
    (h : kind ≠ .version1 ∨ nblock = 0 ∨ offset = 0 ∧ nblock = 1) : Serves kind offset nblock := by
  intro c m hquiet hkind hcap
  obtain ⟨c₁, hinit, hready₁⟩ := takes_sdinit hquiet
  refine ⟨m.kind.type, c₁, _, hinit, hready₁, ⟨rfl, rfl⟩, rfl, ?_⟩
  intro c₂ m₂ hready hsame src
  have hcap₂ : offset + nblock ≤ m₂.capacity := by
    rw [hsame.2]
    exact hcap
  have hlt : offset + nblock ≤ 2 ^ 32 :=
    hcap₂.trans (m₂.capacity_le.trans m₂.kind.maxBlocks_le)
  have haddr : Addressed m₂ m.kind.type offset nblock := by
    rw [← hsame.1]
    refine addressed_of hcap₂ ?_
    rw [hsame.1, hkind]
    exact h
  refine ⟨takes_sdwrite hready hlt haddr src, ?_⟩
  intro hsrc
  obtain ⟨c₃, hread, hready₃⟩ := takes_sdread hready hlt haddr
  have hblocks : ((List.range nblock).map fun i => m₂.blocks (offset + i)) =
      (List.range nblock).map src := by
    refine List.map_congr_left ?_
    intro i hi
    exact hsrc i (List.mem_range.1 hi)
  rw [hblocks] at hread
  exact ⟨c₃, hread, hready₃⟩

/-! ### Cards of version 1 -/

/-- A delay of no time. -/
def noDelay : Delay where
  reply := 0
  reply_lt := by decide
  token := []
  token_ne := List.not_mem_nil
  checksum := (0, 0)
  ack := 0
  ackHigh := 0
  busy := []
  busy_ne := List.not_mem_nil

/-- A blank card of version 1, of 4 GB. -/
def blankCore : Core where
  kind := .version1
  capacity := 2 ^ 23
  capacity_le := le_rfl
  blocks := fun _ => nullBlock
  idle := true
  tries := 0
  ocr := 0
  app := false

/-- The blank card when the power comes on. -/
def blankCard : Card where
  core := blankCore
  input := .command []
  out := []
  delays := fun _ => noDelay

theorem blankCard_quiet : blankCard.Quiet blankCore := ⟨rfl, rfl, rfl⟩

/-- A block with other contents. -/
def onesBlock : Block := fun _ => 1

section Version1

variable {c : Card} {m : Core} {offset : ℕ}

/-- The block number is taken for a byte address. -/
theorem address_version1 (hkind : m.kind = .version1) (hcap : offset < m.capacity) :
    m.address (argOf .sd1 offset) =
      if offset % 512 = 0 then .ok (offset / 512) else .error 0x20 := by
  simp only [Core.address, argOf, reduceCtorEq, if_false, hkind]
  by_cases hmod : offset % 512 = 0
  · rw [if_neg (by omega), if_pos (by omega), if_pos hmod]
  · rw [if_pos hmod, if_neg hmod]

/-- A block number that is no multiple of 512 stops the machine. -/
theorem fails_version1 (h : c.Ready m) (hkind : m.kind = .version1) (hcap : offset < m.capacity)
    (hmod : offset % 512 ≠ 0) (src : Block) : Fails (singleWrite .sd1 offset src) c := by
  have hle := m.capacity_le
  rw [hkind, Kind.maxBlocks] at hle
  have haddr := address_version1 hkind hcap
  rw [if_neg hmod] at haddr
  exact fails_singleWrite h (by omega) haddr (by decide) (by decide) src

/-- A block number that is a multiple of 512 is divided by 512. -/
theorem takes_version1 (h : c.Ready m) (hkind : m.kind = .version1) (hcap : offset < m.capacity)
    (hmod : offset % 512 = 0) (src : Block) :
    ∃ c', Takes (singleWrite .sd1 offset src) c () c' ∧
      c'.Ready { m with blocks := update m.blocks (offset / 512) src } := by
  have hle := m.capacity_le
  rw [hkind, Kind.maxBlocks] at hle
  have haddr := address_version1 hkind hcap
  rw [if_pos hmod] at haddr
  exact takes_singleWrite h (by omega) haddr src

/-- A write that stops stays so with more blocks after it. -/
theorem fails_sdwrite_of_le {type : SdType} {src : ℕ → Block} {k n : ℕ} (hkn : k ≤ n)
    (h : Fails (sdwrite type offset src k) c) : Fails (sdwrite type offset src n) c := by
  induction n, hkn using Nat.le_induction with
  | base => exact h
  | succ n _ ih => exact ih.bind

/-- The write of a single block. -/
theorem takes_sdwrite_one {type : SdType} {src : ℕ → Block} {c' : Card} (hlt : offset < 2 ^ 32)
    (h : Takes (singleWrite type offset (src 0)) c () c') :
    Takes (sdwrite type offset src 1) c () c' := by
  rw [sdwrite, Nat.add_zero, Nat.mod_eq_of_lt hlt]
  exact (Takes.pure _ _).bind h

/-- A write of blocks that are not one multiple of 512 stops the machine. -/
theorem fails_sdwrite_version1 (h : c.Ready m) (hkind : m.kind = .version1) {nblock : ℕ}
    (hcap : offset + nblock ≤ m.capacity) (hn : nblock ≠ 0)
    (hrange : offset % 512 ≠ 0 ∨ 2 ≤ nblock) (src : ℕ → Block) :
    Fails (sdwrite .sd1 offset src nblock) c := by
  have hle := m.capacity_le
  rw [hkind, Kind.maxBlocks] at hle
  by_cases hmod : offset % 512 = 0
  · -- The first block is written somewhere, and the second one is refused.
    have htwo : 2 ≤ nblock := hrange.resolve_left (not_not.2 hmod)
    obtain ⟨c', hfirst, hready⟩ := takes_version1 h hkind (by omega) hmod (src 0)
    refine fails_sdwrite_of_le htwo ?_
    rw [sdwrite, Nat.mod_eq_of_lt (by omega)]
    refine (takes_sdwrite_one (by omega) hfirst).bind_fails ?_
    exact fails_version1 hready hkind (by simp only; omega) (by omega) (src 1)
  · refine fails_sdwrite_of_le (Nat.one_le_iff_ne_zero.2 hn) ?_
    rw [sdwrite, Nat.add_zero, Nat.mod_eq_of_lt (by omega)]
    exact (Takes.pure _ _).bind_fails (fails_version1 h hkind (by omega) hmod (src 0))

end Version1

/-- What a card holds is determined by the card. -/
theorem Card.Ready.unique {c : Card} {m m' : Core} (h : c.Ready m) (h' : c.Ready m') : m = m' :=
  h.sends.core.symm.trans h'.sends.core

/-- **A card of version 1 is not served** but for its first block. -/
theorem not_serves_version1 {offset nblock : ℕ} (hcap : offset + nblock ≤ 2 ^ 23)
    (hn : nblock ≠ 0) (hne : ¬ (offset = 0 ∧ nblock = 1)) : ¬ Serves .version1 offset nblock := by
  intro hserves
  obtain ⟨type, c₁, m₁, hinit, hready, hsame, hblocks, hall⟩ :=
    hserves blankCard blankCore blankCard_quiet rfl hcap
  obtain ⟨c', hinit', -⟩ := takes_sdinit blankCard_quiet
  have htype : type = .sd1 := (hinit.unique hinit').1
  subst htype
  obtain ⟨⟨c₃, hwrite, hready₃⟩, -⟩ := hall c₁ m₁ hready hsame fun _ => onesBlock
  have hcap₁ : offset + nblock ≤ m₁.capacity := by
    rw [hsame.2]
    exact hcap
  by_cases hrange : offset % 512 ≠ 0 ∨ 2 ≤ nblock
  · exact (fails_sdwrite_version1 hready hsame.1 hcap₁ hn hrange _).not_takes hwrite
  · -- One block, whose number is a positive multiple of 512: another block is written.
    obtain rfl : nblock = 1 := by omega
    obtain ⟨c₄, hother, hready₄⟩ :=
      takes_version1 hready hsame.1 (by omega) (by omega : offset % 512 = 0) onesBlock
    have hsame₄ : c₃ = c₄ := (hwrite.unique (takes_sdwrite_one (by omega) hother)).2
    subst hsame₄
    have hcore := congrArg Core.blocks (hready₃.unique hready₄)
    have hat : onesBlock = nullBlock := by
      have h := congrFun hcore offset
      simp only at h
      rw [stored, if_pos (by omega), update_of_ne (by omega), hblocks] at h
      exact h
    exact absurd (congrFun hat 0) (by decide)

/-- **Which ranges are served.**  On a card of version 2, all of them; on a card of version 1, of
which `single_read` and `single_write` send the block number for a byte address, only the first
block. -/
theorem sd_serves_iff (kind : Kind) {offset nblock : ℕ}
    (hcap : offset + nblock ≤ kind.maxBlocks) :
    Serves kind offset nblock ↔
      kind ≠ .version1 ∨ nblock = 0 ∨ (offset = 0 ∧ nblock = 1) := by
  refine ⟨?_, serves_of⟩
  intro hserves
  by_contra hnot
  rw [not_or, not_or, not_not] at hnot
  obtain ⟨rfl, hn, hne⟩ := hnot
  exact not_serves_version1 hcap hn hne hserves

/-- Four blocks in the middle of a card of version 2 are served. -/
theorem sd_serves_iff_standard2 : Serves .standard2 1000 4 :=
  (sd_serves_iff .standard2 (by decide)).2 (Or.inl (by decide))

/-- On a card of version 1, a write of the block 1 stops the machine, and a write of the block 512
ends in the block 1. -/
theorem version1_misaddressed :
    ∃ c₁ c₂ m₁, Takes sdinit blankCard .sd1 c₁ ∧ c₁.Ready m₁ ∧ m₁.blocks = (fun _ => nullBlock) ∧
      Fails (sdwrite .sd1 1 (fun _ => onesBlock) 1) c₁ ∧
      Takes (sdwrite .sd1 512 (fun _ => onesBlock) 1) c₁ () c₂ ∧
      c₂.core.blocks 1 = onesBlock ∧ c₂.core.blocks 512 = nullBlock := by
  obtain ⟨c₁, hinit, hready⟩ := takes_sdinit blankCard_quiet
  have hcap : 512 < blankCore.capacity := by decide
  obtain ⟨c₂, hwrite, hready₂⟩ := takes_version1 hready rfl hcap rfl onesBlock
  have hfails : Fails (sdwrite .sd1 1 (fun _ => onesBlock) 1) c₁ :=
    fails_sdwrite_version1 hready rfl (by decide) (by decide) (Or.inl (by decide)) _
  refine ⟨c₁, c₂, _, hinit, hready, rfl, hfails, takes_sdwrite_one (by decide) hwrite, ?_, ?_⟩
  · rw [hready₂.sends.core]
    rfl
  · rw [hready₂.sends.core]
    rfl

end Egos.Sd
