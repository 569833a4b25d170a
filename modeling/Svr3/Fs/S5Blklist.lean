import Svr3.Fs.S5Bmap

/-!
# The block list of a mapped file

`fs/s5/s5blklist.c`, and `s5readi` of `fs/s5/s5rdwri.c` for a regular file without mandatory locks. Every block
can be read. The read-ahead, which looks at one more entry of the list, is left out: it changes nothing that
is read.
-/

namespace Svr3.S5.Map

/-- Bytes to a page -/
def NBPP : ℕ := 1024

/-- The blocks of the file -/
def nblks (bsize : ℕ) (s : File) : ℕ := ((s.i_size + bsize - 1) / bsize).toNat

/-- Blocks to a page -/
def blkspp (bsize : ℕ) : ℕ := max NBPP bsize / bsize

/-- The entries of the list, up to a page -/
def rounded (bsize : ℕ) (s : File) : ℕ := (nblks bsize s + blkspp bsize - 1) / blkspp bsize * blkspp bsize

/-! ## Building the list -/

/-- The addresses in a buffer from `bnptr` on, while there is room before `eptr` -/
def bldwords (eptr : ℕ) (next : ℕ → List ℕ → List ℕ) (words : ℕ → ℕ) : ℕ → ℕ → List ℕ → List ℕ
  | 0, _, lp => lp
  | cnt + 1, bnptr, lp =>
    if lp.length < eptr then bldwords eptr next words cnt (bnptr + 1) (next (words bnptr) lp) else lp

/-- The buffers of a block from `blknbr` on -/
def bldbufs (eptr : ℕ) (next : ℕ → List ℕ → List ℕ) (disk : Disk) : ℕ → ℕ → List ℕ → List ℕ
  | 0, _, lp => lp
  | n + 1, blknbr, lp =>
    if lp.length < eptr then
      bldbufs eptr next disk n (blknbr + 1) (bldwords eptr next (disk blknbr) (FsNINDIR 1024) 0 lp)
    else lp

/-- The entries under the block `blknbr`, which is read whatever its number is -/
def s5bldindr (bsize eptr : ℕ) (disk : Disk) : ℕ → ℕ → List ℕ → List ℕ
  | 0, blknbr, lp =>
    bldbufs eptr (fun b lp => lp ++ [b]) disk (bsize / 1024) (blknbr * (bsize / 1024)) lp
  | indlvl + 1, blknbr, lp =>
    bldbufs eptr (s5bldindr bsize eptr disk indlvl) disk (bsize / 1024) (blknbr * (bsize / 1024)) lp

/-- The indirect blocks from the address `i` in the inode on. Each fills an entry at least. -/
def bldrest (bsize eptr : ℕ) (s : File) : ℕ → ℕ → List ℕ → List ℕ
  | 0, _, lp => lp
  | n + 1, i, lp =>
    if lp.length < eptr then
      bldrest bsize eptr s n (i + 1) (s5bldindr bsize eptr s.disk (i - 10) (s.s5i_addr i) lp)
    else lp

def s5bldblklst (bsize : ℕ) (s : File) (nblks : ℕ) : List ℕ :=
  let lim := if nblks < 10 then nblks else 10
  bldrest bsize nblks s nblks lim ((List.range lim).map s.s5i_addr)

/-- The last loop of `s5allocmap`, which begins at the first entry and at the rounded size -/
def pad (blkspp : ℕ) : ℕ → ℕ → ℕ → (ℕ → ℤ) → ℕ → ℤ
  | 0, _, _, map => map
  | n + 1, bnptr, i, map =>
    if i % blkspp ≠ 0 then pad blkspp n (bnptr + 1) (i + 1) (Function.update map bnptr (-1)) else map

/-- `s5i_map` after the call. `core` is what `sptalloc` returns. -/
def s5allocmap (bsize : ℕ) (s : File) (s5i_map core : Option (ℕ → ℤ)) : Option (ℕ → ℤ) :=
  match s5i_map with
  | some map => some map
  | none =>
    core.map fun core =>
      let list := s5bldblklst bsize s (nblks bsize s)
      pad (blkspp bsize) (blkspp bsize) 0 (rounded bsize s) fun k =>
        match list[k]? with
        | some b => b
        | none => core k

/-! ## Reading -/

/-- A byte of a buffer -/
def byte (disk : Disk) (blkno : ℤ) (on : ℕ) : ℕ := disk blkno (on / 4) / 256 ^ (3 - on % 4) % 256

/-- The bytes of a buffer from `on` on, zeros if there is none -/
def bytes (disk : Disk) (bn : Option ℤ) (on n : ℕ) : List ℕ :=
  (List.range n).map fun i =>
    match bn with
    | none => 0
    | some bn => byte disk bn (on + i)

/-- The loop of `s5readmap`, with what was copied so far -/
def readmap (msize : ℕ) (disk : Disk) (bmap : ℕ → ℤ) : ℕ → ℕ → ℕ → List ℕ → List ℕ
  | 0, _, _, out => out
  | fuel + 1, offset, size, out =>
    if 0 < size then
      let bsize := FsBSIZE msize
      let factor := msize / bsize
      let bn := bmap (offset / msize) * factor
      if bn < 0 then out
      else
        let on := offset &&& (bsize - 1)
        let n := if bsize - on > size then size else bsize - on
        let bn := if bn ≠ 0 then some (bn + ((offset >>> 10) &&& (factor - 1) : ℕ)) else none
        readmap msize disk bmap fuel (offset + n) (size - n) (out ++ bytes disk bn on n)
    else out

/-- What `s5readmap` returns and copies, `none` for -1 -/
def s5readmap (bsize : ℕ) (s : File) (bmap : ℕ → ℤ) (offset size : ℕ) : Option (ℕ × List ℕ) :=
  if (offset : ℤ) > s.i_size then none
  else
    let size := if (offset + size : ℤ) > s.i_size then (s.i_size - offset).toNat else size
    some (size, readmap bsize s.disk bmap size offset size [])

/-- The `u_pbsize` that `s5bmap` leaves -/
def pbsize (bsize : ℕ) (io : Io) (s : File) : ℕ :=
  let sz : ℤ := FsBSIZE bsize - io.u_offset % FsBSIZE bsize
  let sz := if io.u_count < sz then (io.u_count : ℤ) else sz
  let rem := if s.i_size - io.u_offset < 0 then 0 else s.i_size - io.u_offset
  (if rem < sz then rem else sz).toNat

/-- The arguments after `n` bytes -/
def Io.advance (io : Io) (n : ℕ) : Io :=
  { io with
    u_offset := long (io.u_offset + n)
    u_count := io.u_count - n
    off_t := ⟨Int.le_bmod (by decide), Int.bmod_lt (by decide)⟩ }

/-- The loop of `s5readi`, with what was copied so far -/
def readi (bsize : ℕ) : ℕ → Io → File → List ℕ → List ℕ
  | 0, _, _, out => out
  | fuel + 1, io, s, out =>
    let r := s5bmap bsize true io s
    let on := (io.u_offset % FsBSIZE bsize).toNat
    let n := pbsize bsize io s
    if r.u_error ≠ none ∨ n = 0 then out
    else
      let out := out ++ bytes s.disk (r.ret.map fun bn : ℕ => (bn : ℤ)) on n
      let io := io.advance n
      if io.u_count ≠ 0 then readi bsize fuel io r.file out else out

/-- What `s5readi` copies -/
def s5readi (bsize : ℕ) (io : Io) (s : File) : List ℕ :=
  if io.u_count = 0 ∨ io.u_offset < 0 then [] else readi bsize io.u_count io s []

end Svr3.S5.Map
