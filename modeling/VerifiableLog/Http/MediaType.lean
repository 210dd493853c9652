import VerifiableLog.Bytes

/-!
Media types, as a content type header gives them: a type, a subtype that may end in a suffix after a
plus sign, and parameters, which have to be well formed but are not looked at.
-/

namespace VerifiableLog.Http

def isTokenByte (byte : UInt8) : Bool :=
  (0x30 ≤ byte && byte ≤ 0x39) || (0x41 ≤ byte && byte ≤ 0x5a) || (0x61 ≤ byte && byte ≤ 0x7a) ||
    (Bytes.ofAscii "!#$%&'*+-.^_`|~").contains byte

/-- The bytes of a quoted value, to which the quote itself belongs where it comes first. -/
def isQuotedByte (byte : UInt8) : Bool := 0x20 ≤ byte && byte ≠ 0x7f

def lowercase (text : Bytes) : Bytes :=
  text.map fun byte => if 0x41 ≤ byte && byte ≤ 0x5a then byte + 0x20 else byte

def pass? (mark : UInt8) : Bytes → Option Bytes
  | [] => none
  | byte :: rest => if byte = mark then some rest else none

def passQuoted? : Bytes → Option Bytes
  | [] => none
  | first :: rest =>
    if isQuotedByte first then
      pass? 0x22 (rest.dropWhile fun byte => isQuotedByte byte && byte ≠ 0x22)
    else none

def passSemicolon? (text : Bytes) : Option Bytes :=
  if text.isEmpty then some [] else pass? 0x3b text

def passValue? (text : Bytes) : Option Bytes :=
  match text with
  | [] => some []
  | first :: rest =>
    if first = 0x22 then
      (passQuoted? rest).bind fun rest => passSemicolon? (rest.dropWhile (· == 0x20))
    else if first = 0x3b then none
    else passSemicolon? (text.dropWhile isTokenByte)

theorem length_dropWhile_le (test : UInt8 → Bool) (text : Bytes) :
    (text.dropWhile test).length ≤ text.length :=
  (List.dropWhile_suffix test).length_le

theorem length_pass?_le {mark : UInt8} {text rest : Bytes} (passed : pass? mark text = some rest) :
    rest.length ≤ text.length := by
  unfold pass? at passed
  split at passed
  · simp at passed
  · split at passed
    · simp only [Option.some.injEq] at passed
      subst passed
      simp
    · simp at passed

theorem length_passSemicolon?_le {text rest : Bytes} (passed : passSemicolon? text = some rest) :
    rest.length ≤ text.length := by
  unfold passSemicolon? at passed
  split at passed
  · simp only [Option.some.injEq] at passed
    subst passed
    simp
  · exact length_pass?_le passed

theorem length_passQuoted?_le {text rest : Bytes} (passed : passQuoted? text = some rest) :
    rest.length ≤ text.length := by
  unfold passQuoted? at passed
  split at passed
  · simp at passed
  · rename_i first tail
    split at passed
    · have shorter := length_pass?_le passed
      have droppedShorter :=
        length_dropWhile_le (fun byte => isQuotedByte byte && byte ≠ 0x22) tail
      simp only [List.length_cons]
      omega
    · simp at passed

theorem length_passValue?_le {text rest : Bytes} (passed : passValue? text = some rest) :
    rest.length ≤ text.length := by
  unfold passValue? at passed
  split at passed
  · simp_all
  · rename_i first tail
    split at passed
    · obtain ⟨after, quoted, passed⟩ := Option.bind_eq_some_iff.mp passed
      have quotedShorter := length_passQuoted?_le quoted
      have shorter := length_passSemicolon?_le passed
      have droppedShorter := length_dropWhile_le (· == 0x20) after
      simp only [List.length_cons]
      omega
    · split at passed
      · simp at passed
      · have shorter := length_passSemicolon?_le passed
        have droppedShorter := length_dropWhile_le isTokenByte (first :: tail)
        omega

theorem length_parameter?_le {text rest : Bytes}
    (passed : (pass? 0x3d (text.dropWhile isTokenByte)).bind passValue? = some rest) :
    rest.length ≤ text.length := by
  obtain ⟨value, named, passed⟩ := Option.bind_eq_some_iff.mp passed
  have droppedShorter := length_dropWhile_le isTokenByte text
  have valueShorter := length_pass?_le named
  have restShorter := length_passValue?_le passed
  omega

def areParameters : Bytes → Bool
  | [] => true
  | first :: rest =>
    if first = 0x20 then areParameters rest
    else if !isTokenByte first then false
    else
      match passed : (pass? 0x3d (rest.dropWhile isTokenByte)).bind passValue? with
      | none => false
      | some after =>
        have : after.length ≤ rest.length := length_parameter?_le passed
        areParameters after
termination_by text => text.length
decreasing_by
  · simp
  · simp only [List.length_cons]
    omega

structure MediaType where
  kind : Bytes
  subtype : Bytes
  suffix : Option Bytes
  deriving DecidableEq, Repr

namespace MediaType

/-- Splits a subtype before its last plus sign, unless that is where it starts. -/
def splitSuffix (name : Bytes) : Bytes × Option Bytes :=
  let reversed := name.reverse
  let suffix := (reversed.takeWhile (· ≠ 0x2b)).reverse
  match reversed.dropWhile (· ≠ 0x2b) with
  | _ :: start :: before => ((start :: before).reverse, some suffix)
  | _ => (name, none)

def ofBytes? (text : Bytes) : Option MediaType :=
  let build (name : Bytes) : MediaType :=
    let (subtype, suffix) := splitSuffix (lowercase name)
    ⟨lowercase (text.takeWhile isTokenByte), subtype, suffix⟩
  match text.takeWhile isTokenByte, text.dropWhile isTokenByte with
  | _ :: _, mark :: rest =>
    if mark ≠ 0x2f then none
    else
      let name := rest.takeWhile isTokenByte
      match rest.dropWhile isTokenByte with
      | [] => some (build name)
      | mark :: parameters =>
        if mark = 0x3b && !name.isEmpty && areParameters parameters then some (build name) else none
  | _, _ => none

def isJson (mediaType : MediaType) : Bool :=
  let json := Bytes.ofAscii "json"
  mediaType.kind = Bytes.ofAscii "application" &&
    (mediaType.subtype = json || mediaType.suffix = some json)

end MediaType

def isVisibleAscii (value : Bytes) : Bool :=
  value.all fun byte => (0x20 ≤ byte && byte < 0x7f) || byte = 0x09

def announcesJson (contentType : Option Bytes) : Bool :=
  contentType.any fun value =>
    isVisibleAscii value && (MediaType.ofBytes? value).any MediaType.isJson

end VerifiableLog.Http
