import EmbeddedTemplate.Lib.Crc

/-! The packet error code of `ltc6804.c` and the frames it protects. -/
namespace EmbeddedTemplate.Ltc6804

def pec16Table : List (BitVec 16) := [
  0x0000, 0xC599, 0xCEAB, 0x0B32, 0xD8CF, 0x1D56, 0x1664, 0xD3FD, 0xF407, 0x319E, 0x3AAC, 0xFF35,
  0x2CC8, 0xE951, 0xE263, 0x27FA, 0xAD97, 0x680E, 0x633C, 0xA6A5, 0x7558, 0xB0C1, 0xBBF3, 0x7E6A,
  0x5990, 0x9C09, 0x973B, 0x52A2, 0x815F, 0x44C6, 0x4FF4, 0x8A6D, 0x5B2E, 0x9EB7, 0x9585, 0x501C,
  0x83E1, 0x4678, 0x4D4A, 0x88D3, 0xAF29, 0x6AB0, 0x6182, 0xA41B, 0x77E6, 0xB27F, 0xB94D, 0x7CD4,
  0xF6B9, 0x3320, 0x3812, 0xFD8B, 0x2E76, 0xEBEF, 0xE0DD, 0x2544, 0x02BE, 0xC727, 0xCC15, 0x098C,
  0xDA71, 0x1FE8, 0x14DA, 0xD143, 0xF3C5, 0x365C, 0x3D6E, 0xF8F7, 0x2B0A, 0xEE93, 0xE5A1, 0x2038,
  0x07C2, 0xC25B, 0xC969, 0x0CF0, 0xDF0D, 0x1A94, 0x11A6, 0xD43F, 0x5E52, 0x9BCB, 0x90F9, 0x5560,
  0x869D, 0x4304, 0x4836, 0x8DAF, 0xAA55, 0x6FCC, 0x64FE, 0xA167, 0x729A, 0xB703, 0xBC31, 0x79A8,
  0xA8EB, 0x6D72, 0x6640, 0xA3D9, 0x7024, 0xB5BD, 0xBE8F, 0x7B16, 0x5CEC, 0x9975, 0x9247, 0x57DE,
  0x8423, 0x41BA, 0x4A88, 0x8F11, 0x057C, 0xC0E5, 0xCBD7, 0x0E4E, 0xDDB3, 0x182A, 0x1318, 0xD681,
  0xF17B, 0x34E2, 0x3FD0, 0xFA49, 0x29B4, 0xEC2D, 0xE71F, 0x2286, 0xA213, 0x678A, 0x6CB8, 0xA921,
  0x7ADC, 0xBF45, 0xB477, 0x71EE, 0x5614, 0x938D, 0x98BF, 0x5D26, 0x8EDB, 0x4B42, 0x4070, 0x85E9,
  0x0F84, 0xCA1D, 0xC12F, 0x04B6, 0xD74B, 0x12D2, 0x19E0, 0xDC79, 0xFB83, 0x3E1A, 0x3528, 0xF0B1,
  0x234C, 0xE6D5, 0xEDE7, 0x287E, 0xF93D, 0x3CA4, 0x3796, 0xF20F, 0x21F2, 0xE46B, 0xEF59, 0x2AC0,
  0x0D3A, 0xC8A3, 0xC391, 0x0608, 0xD5F5, 0x106C, 0x1B5E, 0xDEC7, 0x54AA, 0x9133, 0x9A01, 0x5F98,
  0x8C65, 0x49FC, 0x42CE, 0x8757, 0xA0AD, 0x6534, 0x6E06, 0xAB9F, 0x7862, 0xBDFB, 0xB6C9, 0x7350,
  0x51D6, 0x944F, 0x9F7D, 0x5AE4, 0x8919, 0x4C80, 0x47B2, 0x822B, 0xA5D1, 0x6048, 0x6B7A, 0xAEE3,
  0x7D1E, 0xB887, 0xB3B5, 0x762C, 0xFC41, 0x39D8, 0x32EA, 0xF773, 0x248E, 0xE117, 0xEA25, 0x2FBC,
  0x0846, 0xCDDF, 0xC6ED, 0x0374, 0xD089, 0x1510, 0x1E22, 0xDBBB, 0x0AF8, 0xCF61, 0xC453, 0x01CA,
  0xD237, 0x17AE, 0x1C9C, 0xD905, 0xFEFF, 0x3B66, 0x3054, 0xF5CD, 0x2630, 0xE3A9, 0xE89B, 0x2D02,
  0xA76F, 0x62F6, 0x69C4, 0xAC5D, 0x7FA0, 0xBA39, 0xB10B, 0x7492, 0x5368, 0x96F1, 0x9DC3, 0x585A,
  0x8BA7, 0x4E3E, 0x450C, 0x8095]

def address (remainder : BitVec 16) (data : UInt8) : BitVec 16 :=
  ((remainder >>> 7) ^^^ data.toBitVec.setWidth 16) &&& 0xff#16

/-- Loop body of `calc_crc16`. The shift is done in `int` and truncated by the store. -/
def crcStep (remainder : BitVec 16) (data : UInt8) : BitVec 16 :=
  (remainder <<< 8) ^^^ pec16Table.getD (address remainder data).toNat 0

def calcCrc16 (data : List UInt8) : BitVec 16 := (data.foldl crcStep 16#16) <<< 1

/-- `crc >> 8` and `(uint8_t)crc`, in the order they are sent. -/
def crcBytes (crc : BitVec 16) : List UInt8 :=
  [UInt8.ofBitVec ((crc >>> 8).setWidth 8), UInt8.ofBitVec (crc.setWidth 8)]

inductive SpiEvent where
  | select (on : Bool)
  | byte (sent : UInt8)
  deriving DecidableEq, Repr

/-- The SPI bus: what the slave answers to the `n`-th byte, the number of bytes
exchanged and everything the master has done, oldest first. -/
structure Bus where
  miso : ℕ → UInt8
  exchanged : ℕ
  log : List SpiEvent

namespace Bus

def select (s : Bus) (on : Bool) : Bus := { s with log := s.log ++ [.select on] }

/-- `spi_transmit_byte`: the byte is replaced by the one the slave sends meanwhile. -/
def transmitByte (s : Bus) (b : UInt8) : UInt8 × Bus :=
  (s.miso s.exchanged, { s with exchanged := s.exchanged + 1, log := s.log ++ [.byte b] })

def send (s : Bus) (bs : List UInt8) : Bus := bs.foldl (fun s b => (s.transmitByte b).2) s

end Bus

def wakeUp (s : Bus) : Bus := (s.select true).select false

def sendShortAndCrc (s : Bus) (data : BitVec 16) : Bus :=
  let tmp := crcBytes data
  (s.send tmp).send (crcBytes (calcCrc16 tmp))

/-- The loop `for (i = 0; i < size; i++)` of the receiver, whose counter is a `uint8_t`.
The `fuel` bounds the number of tests of the loop condition. -/
def recvLoop (size : ℕ) : ℕ → UInt8 → List UInt8 → Bus → Option (List UInt8 × Bus)
  | 0, _, _, _ => none
  | fuel + 1, i, buf, s =>
    if i.toNat < size then
      let r := s.transmitByte (buf.getD i.toNat 0)
      recvLoop size fuel (i + 1) (buf.set i.toNat r.1) r.2
    else some (buf, s)

def accepts (buf : List UInt8) (crcRecv0 crcRecv1 : UInt8) : Bool :=
  let crc := calcCrc16 buf
  crcRecv0.toBitVec.setWidth 16 == crc >>> 8 && crcRecv1.toBitVec.setWidth 16 == crc &&& 0xff#16

/-- `ltc_recv_data_daisychain` with a buffer of `size` bytes: the return value, the
buffer and the bus. It does not return when the loop does not. -/
def recvDataDaisychain (fuel size : ℕ) (cmd : BitVec 16) (s : Bus) :
    Option (Bool × List UInt8 × Bus) := do
  let s := sendShortAndCrc ((wakeUp s).select true) cmd
  let (buf, s) ← recvLoop size fuel 0 (List.replicate size 0xff) s
  if 0 < size then
    let (crcRecv0, s) := s.transmitByte 0xff
    let (crcRecv1, s) := s.transmitByte 0xff
    some (accepts buf crcRecv0 crcRecv1, buf, s.select false)
  else
    some (true, buf, s.select false)

end EmbeddedTemplate.Ltc6804
