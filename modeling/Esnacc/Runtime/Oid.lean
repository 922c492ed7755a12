import Esnacc.Runtime.Json

/-!
OBJECT IDENTIFIER: the octets of the arcs, the array of the arcs and the dotted string. The
arcs are of the type `unsigned long`. Every arc is a group of seven bits an octet, of which
all but the last have the high bit set.
-/

namespace Esnacc

open BitString

/-- `(unsigned long)-1`, which ends a list of arcs. -/
def ulongMax : ℕ := 2 ^ 64 - 1

/-- `LONG_MAX`. -/
def longMax : ℕ := 2 ^ 63 - 1

def oidException (what : String) : Fault := except what .oidError

def parameterException (what : String) : Fault := except what .parameterError

/-- `oid` is not `NULL`; the dotted string is made when it is asked for. -/
structure AsnRelativeOid where
  isRelative : Bool
  oid : List Octet
  oidString : Option (List Octet)
  deriving DecidableEq

namespace AsnRelativeOid

/-! ### Writing arcs -/

/-- The passes of the loop that counts the octets of an arc. -/
def arcLenLoop : ℕ → ℕ → ℕ
  | 0, _ => 0
  | fuel + 1, tmpNum => if 0 < tmpNum / 128 then arcLenLoop fuel (tmpNum / 128) + 1 else 1

/-- `arcLen`: ten octets hold every `unsigned long`. -/
def arcLen (tmpArcNum : ℕ) : ℕ := arcLenLoop 10 tmpArcNum

/-- The octets of an arc are written from the last to the first. -/
def writeArc : ℕ → ℕ → Bool → List Octet → List Octet
  | 0, _, _, octets => octets
  | j + 1, tmpArcNum, isLast, octets =>
      let octet := BitVec.ofNat 8 (tmpArcNum % 128)
      writeArc j (tmpArcNum / 128) false ((if isLast then octet else octet ||| 0x80) :: octets)

def arcOctets (tmpArcNum : ℕ) : List Octet := writeArc (arcLen tmpArcNum) tmpArcNum true []

/-- Writes one arc to the buffer `buf`. -/
def putArc (size : ℕ) (buf : List Octet) (tmpArcNum : ℕ) : Except Fault (List Octet) :=
  if buf.length + arcLen tmpArcNum ≤ size then .ok (buf ++ arcOctets tmpArcNum)
  else .error (.undefinedBehaviour "a write behind the end of the buffer")

/-- The index of the loop over the arcs has 32 bits. -/
def leaveArcs (i : ℕ) (buf : List Octet) : Except Fault (List Octet) :=
  if i < 2 ^ 32 then .ok buf else .error (.undefinedBehaviour "the loop does not end")

/-- The loop over the arcs from the `i`-th one. -/
def putArcs (size : ℕ) : ℕ → List ℕ → List Octet → Except Fault (List Octet)
  | i, [], buf => leaveArcs i buf
  | i, arc :: arcs, buf =>
      if arc = ulongMax then leaveArcs i buf
      else putArc size buf arc >>= putArcs size (i + 1) arcs

/-- What `Set` writes for an array of arcs. -/
def encodeArcs (isRelative : Bool) (arcNumArr : List ℕ) : Except Fault (List Octet) :=
  let size := 5 * arcNumArr.length % 2 ^ 64
  match arcNumArr with
  | [] => .error (parameterException "Invalid arguments in AsnRelativeOid::Set()")
  | first :: rest =>
      if isRelative ∨ first = ulongMax then putArcs size 0 arcNumArr []
      else match rest with
        | [] => .error (parameterException "Invalid parameter to AsnRelativeOid::Set()")
        | second :: rest =>
            if second = ulongMax then
              .error (parameterException "Invalid parameter to AsnRelativeOid::Set()")
            else if 2 < first then
              .error (oidException "First arc number must be 0, 1, or 2")
            else
              -- the first two arcs are munged together
              putArc size [] ((first * 40 + second) % 2 ^ 64) >>= putArcs size 2 rest

/-- `Set(arcNumArr, arrLength)`: `totalLen` has 32 bits. -/
def setArcs (isRelative : Bool) (arcNumArr : List ℕ) : Except Fault AsnRelativeOid :=
  (encodeArcs isRelative arcNumArr).map fun buf =>
    ⟨isRelative, buf.take (buf.length % 2 ^ 32), none⟩

/-! ### Reading arcs -/

/-- `arc <<= 7` and then the low bits of an octet, which `|=` or `+=` puts into the place of
zeros. -/
def shiftIn (arc : ℕ) (octet : Octet) : ℕ := arc * 128 % 2 ^ 64 + octet.toNat % 128

/-- Reads the octets of an arc: its value, what follows, and whether its last octet was
there. -/
def readArc : List Octet → ℕ → ℕ × List Octet × Bool
  | [], arc => (arc, [], false)
  | octet :: octets, arc =>
      if octet.toNat < 128 then (shiftIn arc octet, octets, true)
      else readArc octets (shiftIn arc octet)

/-- The loop of `NumArcs`. -/
def numArcsLoop : ℕ → List Octet → ℕ
  | _, [] => 0
  | 0, _ :: _ => 0
  | fuel + 1, octets => numArcsLoop fuel (readArc octets 0).2.1 + 1

def numArcs (x : AsnRelativeOid) : ℕ :=
  let numArcs := numArcsLoop x.oid.length x.oid
  if !x.isRelative ∧ 0 < numArcs then numArcs + 1 else numArcs

/-- The first arc is split into two. -/
def unmunge : List ℕ → Except Fault (List ℕ)
  | arc :: _ :: rest =>
      .ok (min (arc / 40) 2 :: (arc - min (arc / 40) 2 * 40) :: rest)
  | _ => .error (.undefinedBehaviour "a write behind the end of the array")

/-- The loop of `GetOidArray`: the arcs are shifted into what the array holds. -/
def oidArrayLoop (isRelative : Bool) : ℕ → List Octet → ℕ → List ℕ → Except Fault (List ℕ)
  | _, [], _, oidArray => .ok oidArray
  | 0, _ :: _, _, _ => .error (.undefinedBehaviour "the loop does not end")
  | fuel + 1, octets, iArc, oidArray =>
      if iArc < oidArray.length then
        let r := readArc octets (oidArray.getD iArc 0)
        if r.2.2 = false then .error (oidException "Invalid encoded OID")
        else if isRelative ∨ iArc ≠ 0 then
          oidArrayLoop isRelative fuel r.2.1 (iArc + 1) (oidArray.set iArc r.1)
        else
          unmunge (oidArray.set iArc r.1) >>= oidArrayLoop isRelative fuel r.2.1 (iArc + 2)
      else .error (.undefinedBehaviour "a write behind the end of the array")

def getOidArray (x : AsnRelativeOid) (oidArray : List ℕ) : Except Fault (List ℕ) :=
  oidArrayLoop x.isRelative x.oid.length x.oid 0 oidArray

/-- `GetOidArray` on an array of `NumArcs` zeros, as `Print` calls it. -/
def arcArray (x : AsnRelativeOid) : Except Fault (List ℕ) :=
  x.getOidArray (List.replicate x.numArcs 0)

/-! ### The dotted string -/

/-- What `sprintf_s` prints for an arc. -/
def arcText (isRelative isFirst : Bool) (arcNum : ℕ) : List Octet :=
  if isFirst then
    if isRelative then SJson.Value.decimal arcNum
    else
      SJson.Value.decimal (min (arcNum / 40) 2) ++ 0x2E ::
        SJson.Value.decimal (arcNum - min (arcNum / 40) 2 * 40)
  else 0x2E :: SJson.Value.decimal arcNum

/-- The loop of `createDottedOidStr`; an arc may end with the octets. -/
def dottedLoop (isRelative : Bool) : ℕ → List Octet → Bool → List Octet → List Octet
  | _, [], _, tempBuf => tempBuf
  | 0, _ :: _, _, tempBuf => tempBuf
  | fuel + 1, octets, isFirst, tempBuf =>
      let r := readArc octets 0
      dottedLoop isRelative fuel r.2.1 false (tempBuf ++ arcText isRelative isFirst r.1)

def createDottedOidStr (x : AsnRelativeOid) : List Octet :=
  dottedLoop x.isRelative x.oid.length x.oid true []

/-- `operator const char*`. -/
def toCString (x : AsnRelativeOid) : List Octet := x.oidString.getD x.createDottedOidStr

/-- `atol` of digits: what is too large is `LONG_MAX`. -/
def atol (digits : List Octet) : ℕ :=
  min (digits.foldl (fun n digit => 10 * n + (digit.toNat - 0x30)) 0) longMax

def isDigit (ch : Octet) : Bool := 0x30 ≤ ch.toNat && ch.toNat ≤ 0x39

/-- The loop of `Set(szOidCopy)`. -/
def parseLoop : ℕ → List Octet → List ℕ → Except Fault (List ℕ)
  | _, [], intArray => .ok intArray
  | 0, _ :: _, _ => .error (.undefinedBehaviour "the loop does not end")
  | fuel + 1, ch :: str, intArray =>
      let pIntStr := if ch = 0x2E then str else ch :: str
      let token := pIntStr.takeWhile (· != 0x2E)
      if !token.all isDigit then .error (oidException "Invalid character in OID string.")
      else if token.isEmpty then .error (oidException "Invalid OID string format")
      else parseLoop fuel (pIntStr.drop token.length) (intArray ++ [atol token])

/-- `Set(szOidCopy)`, which keeps the string beside the octets. The loop that copies the arcs
has an index of 32 bits. -/
def setString (isRelative : Bool) (szOidCopy : List Octet) : Except Fault AsnRelativeOid :=
  let str := SJson.cString szOidCopy
  if str.head? = some 0x2E then .error (oidException "Invalid OID string format")
  else do
    let intArray ← parseLoop str.length str []
    if 2 ^ 32 ≤ intArray.length then .error (.undefinedBehaviour "the loop does not end")
    else
      let x ← setArcs isRelative intArray
      return { x with oidString := some str }

/-- `JEnc`, which hands out the octets. -/
def jEnc (x : AsnRelativeOid) : Except Fault SJson.Value := SJson.Value.ofString x.oid

/-- `JDec`: the object afterwards, and what the call returns. -/
def jDec (x : AsnRelativeOid) (b : SJson.Value) : Except Fault (AsnRelativeOid × Bool) :=
  if b.isConvertibleToString then do
    let str ← b.asString
    let y ← setString x.isRelative str
    return (y, true)
  else .ok (x, false)

/-! ### The octets of an arc -/

theorem arcLenLoop_le_iff {fuel n k : ℕ} (hn : n < 128 ^ fuel) (hk : 0 < k) :
    arcLenLoop fuel n ≤ k ↔ n < 128 ^ k := by
  induction fuel generalizing n k with
  | zero =>
      obtain rfl : n = 0 := by simpa using hn
      simp [arcLenLoop]
  | succ fuel ih =>
      obtain ⟨k, rfl⟩ := Nat.exists_eq_add_of_lt hk
      rw [arcLenLoop]
      split
      · next hpos =>
          have hdiv : n / 128 < 128 ^ fuel := by
            rw [Nat.div_lt_iff_lt_mul (by decide)]
            exact hn
          cases k with
          | zero =>
              have hlen : 0 < arcLenLoop fuel (n / 128) := by
                cases fuel with
                | zero => simp at hdiv; omega
                | succ fuel => rw [arcLenLoop]; split <;> omega
              simp only [Nat.zero_add, pow_one]
              omega
          | succ k =>
              have hiff := ih hdiv (Nat.succ_pos k)
              rw [Nat.div_lt_iff_lt_mul (by decide)] at hiff
              rw [show 0 + (k + 1) + 1 = (k + 1) + 1 by omega, Nat.add_le_add_iff_right,
                pow_succ]
              exact hiff
      · next hzero =>
          have hsmall : n < 128 := by omega
          refine iff_of_true (by omega) (hsmall.trans_le ?_)
          exact Nat.le_self_pow (by omega) 128

theorem ulong_lt_pow {n : ℕ} (h : n < 2 ^ 64) : n < 128 ^ 10 := h.trans (by norm_num)

theorem arcLen_le_iff {n k : ℕ} (h : n < 2 ^ 64) (hk : 0 < k) : arcLen n ≤ k ↔ n < 128 ^ k :=
  arcLenLoop_le_iff (ulong_lt_pow h) hk

theorem arcLen_pos (n : ℕ) : 0 < arcLen n := by
  rw [arcLen, arcLenLoop]
  split <;> omega

theorem lt_pow_arcLen {n : ℕ} (h : n < 2 ^ 64) : n < 128 ^ arcLen n :=
  (arcLen_le_iff h (arcLen_pos n)).mp le_rfl

theorem writeArc_append (j n : ℕ) (isLast : Bool) (octets : List Octet) :
    writeArc j n isLast octets = writeArc j n isLast [] ++ octets := by
  induction j generalizing n isLast octets with
  | zero => rfl
  | succ j ih =>
      rw [writeArc, ih, writeArc, ih _ _ [_], List.append_assoc]
      rfl

theorem length_writeArc (j n : ℕ) (isLast : Bool) : (writeArc j n isLast []).length = j := by
  induction j generalizing n isLast with
  | zero => rfl
  | succ j ih =>
      rw [writeArc, writeArc_append, List.length_append, ih]
      rfl

theorem length_arcOctets (n : ℕ) : (arcOctets n).length = arcLen n := length_writeArc _ _ _

theorem toNat_low (n : ℕ) : (BitVec.ofNat 8 (n % 128)).toNat = n % 128 := by
  rw [BitVec.toNat_ofNat]
  omega

theorem toNat_more (n : ℕ) : (BitVec.ofNat 8 (n % 128) ||| 0x80 : Octet).toNat = 128 + n % 128 := by
  have hor := Nat.two_pow_add_eq_or_of_lt (show n % 128 < 2 ^ 7 by omega) 1
  rw [BitVec.toNat_or, toNat_low, Nat.or_comm]
  exact hor.symm

/-- The octets with the high bit set are shifted into the arc. -/
theorem readArc_writeArc (j : ℕ) {n arc : ℕ} (octet : Octet) (octets : List Octet)
    (h : arc * 128 ^ j + n < 2 ^ 64) (hn : n < 128 ^ j) :
    readArc (writeArc j n false [] ++ octet :: octets) arc =
      readArc (octet :: octets) (arc * 128 ^ j + n) := by
  induction j generalizing n octet octets with
  | zero =>
      obtain rfl : n = 0 := by simpa using hn
      simp [writeArc]
  | succ j ih =>
      have hdiv : n / 128 < 128 ^ j := by
        rw [Nat.div_lt_iff_lt_mul (by decide)]
        exact hn
      have hsplit : arc * 128 ^ (j + 1) + n = (arc * 128 ^ j + n / 128) * 128 + n % 128 := by
        rw [pow_succ]
        have := Nat.div_add_mod n 128
        nlinarith
      have hmore := toNat_more n
      rw [writeArc, if_neg Bool.false_ne_true, writeArc_append, List.append_assoc,
        List.singleton_append, ih _ _ (by omega) hdiv, readArc, if_neg (by omega), shiftIn, hmore,
        Nat.mod_eq_of_lt (by omega), hsplit]
      congr 1
      omega

theorem readArc_arcOctets {n : ℕ} (h : n < 2 ^ 64) (octets : List Octet) :
    readArc (arcOctets n ++ octets) 0 = (n, octets, true) := by
  have hpow := lt_pow_arcLen h
  obtain ⟨j, hj⟩ := Nat.exists_eq_add_of_lt (arcLen_pos n)
  rw [Nat.zero_add] at hj
  rw [hj, pow_succ] at hpow
  have hdiv : n / 128 < 128 ^ j := by rwa [Nat.div_lt_iff_lt_mul (by decide)]
  have hlow := toNat_low n
  rw [arcOctets, hj, writeArc, if_pos rfl, writeArc_append, List.append_assoc,
    List.singleton_append, readArc_writeArc j _ _ (by omega) hdiv, readArc, if_pos (by omega),
    shiftIn, hlow, Nat.zero_mul, Nat.zero_add, Nat.mod_eq_of_lt (by omega)]
  congr 1
  omega

end AsnRelativeOid

end Esnacc
