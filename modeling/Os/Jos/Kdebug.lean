/-
Debugging information: `kern/kdebug.c`.

The stabs are a table that is indexed by `int`, and nothing keeps an index inside it: `stabs i` is
what lies at `stabs + 12 * i`, whatever that is.  Each function also says what it has looked at, in
a list with the latest first.  An array of stabs has fewer than 2^29 entries, so the sums of two
indices are those of integers.

The loop of `stab_binsearch` takes a fuel.
-/
import Os.Jos.Pmap

namespace Jos

variable {M : Machine}

/-! ### `inc/stab.h` -/

def nFun : Int := 0x24
def nSline : Int := 0x44
def nSo : Int := 0x64
def nSol : Int := 0x84
def nPsym : Int := 0xa0

structure Stab where
  nStrx : Word
  nType : BitVec 8
  nDesc : BitVec 16
  nValue : Word

inductive StabField
  | strx
  | type
  | desc
  | value
  deriving DecidableEq

/-- What an access to the table reads. -/
abbrev Look := Int × StabField

/-- `stabs[i].n_type == type` -/
abbrev Stab.Is (s : Stab) (type : Int) : Prop := (s.nType.toNat : Int) = type

/-! ### `stab_binsearch` -/

/-- `while(m >= l && stabs[m].n_type != type) m--;` with `n` indices to go, and the loop at the end
of the search. -/
def scanDown (stabs : Int → Stab) (type : Int) : Nat → Int → List Look → Int × List Look
  | 0, m, looks => (m, looks)
  | n + 1, m, looks =>
    if (stabs m).Is type then (m, (m, .type) :: looks)
    else scanDown stabs type n (m - 1) ((m, .type) :: looks)

structure Search where
  l : Int
  r : Int
  anyMatches : Bool
  regionLeft : Int
  regionRight : Int
  addr : Word
  looks : List Look

/-- One turn of the loop. -/
def searchStep (stabs : Int → Stab) (type : Int) (s : Search) : Search :=
  let trueM := (s.l + s.r).tdiv 2
  let (m, looks) := scanDown stabs type (trueM + 1 - s.l).toNat trueM s.looks
  if m < s.l then { s with l := trueM + 1, looks := looks }
  else
    let s := { s with anyMatches := true, looks := (m, .value) :: looks }
    if (stabs m).nValue < s.addr then { s with regionLeft := m, l := trueM + 1 }
    else if s.addr < (stabs m).nValue then { s with regionRight := m - 1, r := m - 1 }
    -- an exact match: go on from here, as if looking for the next address
    else { s with regionLeft := m, l := m, addr := s.addr + 1 }

def searchLoop (stabs : Int → Stab) (type : Int) : Nat → Search → Option Search
  | 0, _ => none
  | n + 1, s => if s.l ≤ s.r then searchLoop stabs type n (searchStep stabs type s) else some s

/-- `*region_left` and `*region_right` afterwards. -/
def stabBinsearch (stabs : Int → Stab) (regionLeft regionRight type : Int) (addr : Word)
    (looks : List Look) : Option (Int × Int × List Look) :=
  let fuel := 2 * (regionRight + 1 - regionLeft).toNat + 2
  match searchLoop stabs type fuel
      ⟨regionLeft, regionRight, false, regionLeft, regionRight, addr, looks⟩ with
  | none => none
  | some s =>
    if s.anyMatches then
      let (l, looks) := scanDown stabs type (s.regionRight - s.regionLeft).toNat s.regionRight
        s.looks
      some (l, s.regionRight, looks)
    else some (s.regionLeft, s.regionLeft - 1, s.looks)

/-! ### `debuginfo_eip` -/

/-- A string that is not in the table is `"<unknown>"`. -/
structure Eipdebuginfo where
  eipFile : Option Word
  eipLine : Int
  eipFnName : Option Word
  eipFnNamelen : Int
  eipFnAddr : Word
  eipFnNarg : Int

def Eipdebuginfo.unknown (addr : Word) : Eipdebuginfo := ⟨none, 0, none, 9, addr, 0⟩

/-- Accesses to the stabs, and to a byte of memory. -/
inductive Deref
  | stab (look : Look)
  | byte (addr : Word)
  deriving DecidableEq

/-- `strfind(s, ':') - s`, with at most `n` characters to go. -/
def strfind (mem : Word → BitVec 8) : Nat → Word → Nat → List Deref → Nat × List Deref
  | 0, _, k, seen => (k, seen)
  | n + 1, s, k, seen =>
    if mem s = 0 ∨ mem s = 58 then (k, .byte s :: seen)
    else strfind mem n (s + 1) (k + 1) (.byte s :: seen)

/-- The loop that looks for the name of the file, from `lline` down to `lfile`. -/
def findFile (stabs : Int → Stab) : Nat → Int → List Look → Int × List Look
  | 0, lline, looks => (lline, looks)
  | n + 1, lline, looks =>
    if (stabs lline).Is nSol then (lline, (lline, .type) :: looks)
    else if (stabs lline).Is nSo then
      if (stabs lline).nValue ≠ 0 then (lline, (lline, .value) :: (lline, .type) :: looks)
      else findFile stabs n (lline - 1) ((lline, .value) :: (lline, .type) :: looks)
    else findFile stabs n (lline - 1) ((lline, .type) :: looks)

/-- The loop that counts the arguments, from `lline` up to `rfun`. -/
def countArgs (stabs : Int → Stab) : Nat → Int → Int → List Look → Int × List Look
  | 0, _, narg, looks => (narg, looks)
  | n + 1, lline, narg, looks =>
    if (stabs lline).Is nPsym then
      countArgs stabs n (lline + 1) (narg + 1) ((lline, .type) :: looks)
    else (narg, (lline, .type) :: looks)

/-- The string table: `stabstr` and `stabstr_end`. -/
structure Stabstr where
  start : Word
  finish : Word

/-- `strx < stabstr_end - stabstr`, which compares unsigned. -/
abbrev Stabstr.Has (t : Stabstr) (strx : Word) : Prop := strx < t.finish - t.start

/-- `debuginfo_eip` from the search for the function on, in the file `[lfile, rfile]`. -/
def debuginfoFile (stabs : Int → Stab) (str : Stabstr) (mem : Word → BitVec 8) (addr : Word)
    (lfile rfile : Int) (looks : List Look) (seen : List Deref) :
    Option (Int × Eipdebuginfo × List Deref) := do
  let info := Eipdebuginfo.unknown addr
  let (lfun, rfun, looks) ← stabBinsearch stabs lfile rfile nFun addr looks
  let (info, lline, rline, addr, looks) :=
    if lfun ≤ rfun then
      let name := if str.Has (stabs lfun).nStrx then some (str.start + (stabs lfun).nStrx) else none
      ({ info with eipFnName := name, eipFnAddr := (stabs lfun).nValue }, lfun, rfun,
        addr - (stabs lfun).nValue, (lfun, .value) :: (lfun, .strx) :: looks)
    else ({ info with eipFnAddr := addr }, lfile, rfile, addr, looks)
  let (namelen, seen) :=
    match info.eipFnName with
    | none => (9, seen)
    | some s => strfind mem (str.finish - s).toNat s 0 seen
  let info := { info with eipFnNamelen := namelen }
  let (lline, rline, looks) ← stabBinsearch stabs lline rline nSline addr looks
  let (info, looks) :=
    if lline ≤ rline then
      ({ info with eipLine := ((stabs rline).nDesc.toNat : Int) }, (rline, .desc) :: looks)
    else ({ info with eipLine := -1 }, looks)
  let (lline, looks) := findFile stabs (lline + 1 - lfile).toNat lline looks
  let (info, looks) :=
    if lfile ≤ lline then
      if str.Has (stabs lline).nStrx then
        ({ info with eipFile := some (str.start + (stabs lline).nStrx) },
          (lline, .strx) :: looks)
      else (info, (lline, .strx) :: looks)
    else (info, looks)
  let (narg, looks) :=
    if lfun < rfun then countArgs stabs (rfun - (lfun + 1)).toNat (lfun + 1) 0 looks else (0, looks)
  return (0, { info with eipFnNarg := narg }, looks.map .stab ++ seen)

/-- `debuginfo_eip` once it knows the tables: the result, `*info` and what was looked at. -/
def debuginfoTables (stabs : Int → Stab) (nstabs : Int) (str : Stabstr) (mem : Word → BitVec 8)
    (addr : Word) (seen : List Deref) : Option (Int × Eipdebuginfo × List Deref) :=
  let info := Eipdebuginfo.unknown addr
  if str.finish ≤ str.start then some (-1, info, seen)
  else
    let seen := .byte (str.finish - 1) :: seen
    if mem (str.finish - 1) ≠ 0 then some (-1, info, seen)
    else
      match stabBinsearch stabs 0 (nstabs - 1) nSo addr [] with
      | none => none
      | some (lfile, rfile, looks) =>
        if lfile = 0 then some (-1, info, looks.map .stab ++ seen)
        else debuginfoFile stabs str mem addr lfile rfile looks seen

/-! ### The tables in memory -/

def ustabdata : Word := 0x200000

/-- The stab at index `i` of the table at `a`. -/
def stabAt (mem : Word → BitVec 8) (a : Word) (i : Int) : Stab :=
  let p := a + BitVec.ofInt 32 (12 * i)
  ⟨wordAt mem p, mem (p + 4), mem (p + 7) ++ mem (p + 6), wordAt mem (p + 8)⟩

/-- The addresses an access reads, for a table at `a`. -/
def Deref.addrs (a : Word) : Deref → List Word
  | .byte p => [p]
  | .stab (i, f) =>
    let p := a + BitVec.ofInt 32 (12 * i)
    match f with
    | .strx => [p, p + 1, p + 2, p + 3]
    | .type => [p + 4]
    | .desc => [p + 6, p + 7]
    | .value => [p + 8, p + 9, p + 10, p + 11]

structure UserStabData where
  stabs : Word
  stabEnd : Word
  stabstr : Word
  stabstrEnd : Word

/-- The structure at `USTABDATA`. -/
def UserStabData.read (mem : Word → BitVec 8) : UserStabData :=
  ⟨wordAt mem ustabdata, wordAt mem (ustabdata + 4), wordAt mem (ustabdata + 8),
    wordAt mem (ustabdata + 12)⟩

/-- `(stab_end - stabs) / sizeof(struct Stab)`, where C's `-` divides. -/
def UserStabData.nstabs (usd : UserStabData) : Int := (usd.stabEnd - usd.stabs).toInt.tdiv 12

/-- `debuginfo_eip` for an address below `ULIM`, in an environment with the directory `pgdir`: the
result, `*info` and the addresses that were read.  Of the outer `none`s, one is `user_mem_check`
failing its assertion.  A read of an address that is not mapped is a fault of the kernel; it is in
the list, and what comes after it does not happen. -/
def debuginfoUser (pm : Pmap M) (pgdir : Ppn M) (addr : Word) :
    Option (Int × Eipdebuginfo × List Word) :=
  match userMemCheck pm (some pgdir) ustabdata 16 pteU with
  | none => none
  | some (some _) => some (-1, Eipdebuginfo.unknown addr, [])
  | some none =>
    let mem := userMem pm pgdir
    let usd := UserStabData.read mem
    let header := (List.range 16).map fun k => ustabdata + BitVec.ofNat 32 k
    match debuginfoTables (stabAt mem usd.stabs) usd.nstabs ⟨usd.stabstr, usd.stabstrEnd⟩ mem addr
      [] with
    | none => none
    | some (ret, info, seen) => some (ret, info, seen.flatMap (Deref.addrs usd.stabs) ++ header)

end Jos
