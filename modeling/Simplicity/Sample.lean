import Simplicity.Roots

/-!
# A sample program

A program whose pruned branches hide behind assertions, with pairings that are shared many times
over, and a witness that chooses a branch. Its roots, its cost and its number of nodes are known.
-/

namespace Simplicity.Sample

def program : ByteArray :=
  ⟨#[0xe3, 0x77, 0x42, 0x45, 0x0d, 0x9c, 0xc9, 0xbe, 0x0d, 0x8e, 0x69, 0x33, 0x49, 0x47, 0x84, 0x5a,
    0x2e, 0xc1, 0xb9, 0x36, 0xd8, 0x00, 0xa4, 0x61, 0x8e, 0xf9, 0x22, 0xde, 0x84, 0x3f, 0x66, 0x98,
    0x5f, 0xa4, 0xd2, 0x97, 0x14, 0x83, 0x0f, 0x05, 0x06, 0x1e, 0x0a, 0x0c, 0x36, 0x84, 0x24, 0x50,
    0xc2, 0xc7, 0x6c, 0x49, 0xe7, 0xbd, 0xc3, 0x20, 0xfd, 0xb3, 0xf6, 0x6a, 0xd2, 0x8b, 0x4f, 0x47,
    0xa4, 0x4c, 0xb7, 0x7f, 0xd4, 0xd0, 0x94, 0x78, 0xc5, 0xe4, 0xf7, 0xb6, 0x22, 0xc1, 0x67, 0x76,
    0xe6, 0xcd, 0x09, 0x14, 0x35, 0x68, 0x65, 0x5e, 0x5d, 0x83, 0xcc, 0xdb, 0xec, 0x7a, 0xcd, 0x78,
    0xf9, 0x54, 0xfe, 0x91, 0xda, 0x34, 0x24, 0x4e, 0xbf, 0x30, 0xa3, 0x9f, 0xeb, 0xaf, 0xac, 0xcf,
    0x02, 0x69, 0xf7, 0x25, 0x01, 0xb6, 0x1f, 0x68, 0xa0, 0xc0, 0xe2, 0x06, 0x63, 0x0f, 0xc1, 0x85,
    0x07, 0x0b, 0x78, 0xc3, 0xea, 0x14, 0x14, 0x60, 0x78, 0x30, 0x1c, 0x20, 0x70, 0xb8, 0x68, 0xc3,
    0xf1, 0x20, 0xa0, 0xe1, 0x71, 0x18, 0xa3, 0x03, 0xc5, 0xc0, 0x71, 0x81, 0x20, 0x80, 0x71, 0xb0]⟩

def witness : ByteArray :=
  ⟨#[0xe0]⟩

def roots : Roots where
  commitment :=
    ⟨#v[0x311fb6ff, 0x09db7cad, 0xf80b4537, 0xec195873, 0x8a57c5b7, 0xa3dc4258, 0x63e66326,
      0xff376970]⟩
  identity :=
    ⟨#v[0xe5e1ecb1, 0x24f5bf62, 0x61ed2a45, 0xb7b25518, 0xb99cc936, 0x54592eb2, 0x6d29b64d,
      0xaf06352f]⟩
  annotated :=
    ⟨#v[0x9f9548f4, 0x97647b04, 0x4ee0360d, 0xe3ffcdae, 0x6f03f41b, 0xf0c6ec6a, 0xc3251814,
      0x16b3cc58]⟩

/-- The cost of the program in milli weight units. -/
def cost : Nat :=
  13720

def nodes : Nat :=
  55

end Simplicity.Sample
