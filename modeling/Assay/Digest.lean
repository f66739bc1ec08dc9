import Assay.Text.Quoted

/-! Digests of texts: the hexadecimal digits of BLAKE2b with thirty-two bytes and no key. -/

namespace Assay.Digest

def start : Vector UInt64 8 :=
  #v[0x6a09e667f3bcc908, 0xbb67ae8584caa73b, 0x3c6ef372fe94f82b, 0xa54ff53a5f1d36f1,
    0x510e527fade682d1, 0x9b05688c2b3e6c1f, 0x1f83d9abfb41bd6b, 0x5be0cd19137e2179]

/-- The order in which the words of a block are mixed in, for each round. -/
def schedule : List (List (Fin 16)) :=
  let ten : List (List (Fin 16)) :=
    [[0, 1, 2, 3, 4, 5, 6, 7, 8, 9, 10, 11, 12, 13, 14, 15],
      [14, 10, 4, 8, 9, 15, 13, 6, 1, 12, 0, 2, 11, 7, 5, 3],
      [11, 8, 12, 0, 5, 2, 15, 13, 10, 14, 3, 6, 7, 1, 9, 4],
      [7, 9, 3, 1, 13, 12, 11, 14, 2, 6, 5, 10, 4, 0, 15, 8],
      [9, 0, 5, 7, 2, 4, 10, 15, 14, 1, 11, 12, 6, 8, 3, 13],
      [2, 12, 6, 10, 0, 11, 8, 3, 4, 13, 7, 5, 15, 14, 1, 9],
      [12, 5, 1, 15, 14, 13, 4, 10, 0, 7, 6, 3, 9, 2, 8, 11],
      [13, 11, 7, 14, 12, 1, 3, 9, 5, 0, 15, 4, 8, 6, 2, 10],
      [6, 15, 14, 9, 11, 3, 0, 8, 12, 2, 13, 7, 1, 4, 10, 5],
      [10, 2, 8, 4, 7, 6, 1, 5, 15, 11, 9, 14, 3, 12, 13, 0]]
  ten ++ ten.take 2

def rotate (x : UInt64) (n : UInt64) : UInt64 := (x >>> n) ||| (x <<< (64 - n))

/-- The working state of one block. -/
abbrev Work := Vector UInt64 16

/-- Two words mixed into four words of the working state. -/
def mix (v : Work) (a b c d : Fin 16) (x y : UInt64) : Work :=
  let v := v.set a (v[a] + v[b] + x)
  let v := v.set d (rotate (v[d] ^^^ v[a]) 32)
  let v := v.set c (v[c] + v[d])
  let v := v.set b (rotate (v[b] ^^^ v[c]) 24)
  let v := v.set a (v[a] + v[b] + y)
  let v := v.set d (rotate (v[d] ^^^ v[a]) 16)
  let v := v.set c (v[c] + v[d])
  v.set b (rotate (v[b] ^^^ v[c]) 63)

/-- The words of the working state that each step of a round mixes. -/
def steps : List (Fin 16 × Fin 16 × Fin 16 × Fin 16) :=
  [(0, 4, 8, 12), (1, 5, 9, 13), (2, 6, 10, 14), (3, 7, 11, 15),
    (0, 5, 10, 15), (1, 6, 11, 12), (2, 7, 8, 13), (3, 4, 9, 14)]

/-- One round, with the words of the block in the given order. -/
def mixAll (m : Work) (v : Work) :
    List (Fin 16 × Fin 16 × Fin 16 × Fin 16) → List (Fin 16) → Work
  | (a, b, c, d) :: more, i :: j :: order => mixAll m (mix v a b c d m[i] m[j]) more order
  | _, _ => v

/-- The word of eight bytes, the lowest first; missing bytes are zero. -/
def word (t : Text) : UInt64 :=
  (t.take 8).foldr (fun b acc => acc <<< 8 ||| b.toUInt64) 0

def words (block : Text) : Work := Vector.ofFn fun i => word (block.drop (8 * i.val))

/-- The state after a block, of which `count` bytes lie at or before its end. -/
def compress (h : Vector UInt64 8) (block : Text) (count : Nat) (last : Bool) : Vector UInt64 8 :=
  let v : Work := h ++ start
  let v := v.set 12 (v[12] ^^^ count.toUInt64)
  let v := v.set 13 (v[13] ^^^ (count >>> 64).toUInt64)
  let v := if last then v.set 14 (v[14] ^^^ 0xffffffffffffffff) else v
  let m := words block
  let v := schedule.foldl (fun v order => mixAll m v steps order) v
  Vector.ofFn fun i : Fin 8 => h[i] ^^^ v[i.val] ^^^ v[i.val + 8]

/-- The state after the rest of a text, of which `count` bytes were taken before. -/
def absorb (h : Vector UInt64 8) (count : Nat) (t : Text) : Vector UInt64 8 :=
  if t.length ≤ 128 then compress h t (count + t.length) true
  else absorb (compress h (t.take 128) (count + 128) false) (count + 128) (t.drop 128)
termination_by t.length
decreasing_by
  rw [List.length_drop]
  omega

def bytes (w : UInt64) : Text := (List.range 8).map fun i => (w >>> (8 * i).toUInt64).toUInt8

/-- The hexadecimal digits of the digest of a text. -/
def ofText (t : Text) : Text :=
  let h := absorb (start.set 0 (start[0] ^^^ 0x01010020)) 0 t
  ((h.toList.flatMap bytes).take 32).flatMap fun b => Text.hex 2 b.toNat

end Assay.Digest
