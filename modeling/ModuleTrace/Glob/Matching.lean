import ModuleTrace.Glob.Pattern

/-!
# Matching paths

A pattern matches a path when its pieces, one after another, can use up the bytes of the path.
What a piece can leave behind is a list of ends of the text, each once.
-/

namespace ModuleTrace.Glob

def charBytes (c : Char) : List UInt8 :=
  String.utf8EncodeChar c

def textBytes (text : String) : List UInt8 :=
  text.toList.flatMap charBytes

def slash : UInt8 := 0x2f

namespace CharClass

/-- Bytes of a range: of its first character all but the last byte, then those from its last
byte to the first byte of the last character, then the others of that. -/
def rangeHas (first last : Char) (b : UInt8) : Bool :=
  if first = last then (charBytes first).contains b
  else
    let low := charBytes first
    let high := charBytes last
    low.dropLast.contains b || high.tail.contains b
      || (low.getLastD 0 ≤ b && b ≤ high.headD 0)

def has (c : CharClass) (b : UInt8) : Bool :=
  (c.ranges.any fun range => rangeHas range.1 range.2 b) != c.isNegated

end CharClass

def afterBytes? : List UInt8 → List UInt8 → Option (List UInt8)
  | [], bs => some bs
  | _ :: _, [] => none
  | a :: as, b :: bs => if a = b then afterBytes? as bs else none

/-- All ends of the bytes that are reached over bytes of a kind. -/
def endsOver (p : UInt8 → Bool) : List UInt8 → List (List UInt8)
  | [] => [[]]
  | b :: bs => (b :: bs) :: if p b then endsOver p bs else []

def allEnds (bs : List UInt8) : List (List UInt8) :=
  endsOver (fun _ => true) bs

def endsBehindSlash : List UInt8 → List (List UInt8)
  | [] => []
  | b :: bs => if b = slash then bs :: endsBehindSlash bs else endsBehindSlash bs

/-- Ends of one text are told apart by their lengths. -/
def distinctEnds (ends : List (List UInt8)) : List (List UInt8) :=
  ends.foldr (fun e kept =>
    if kept.any fun other => other.length == e.length then kept else e :: kept) []

mutual

/-- Whether a piece stands for no text: a group without a branch that stands for any. -/
def Piece.isBlank : Piece → Bool
  | .choice branches => allBlank branches
  | _ => false

def isBlankBranch : List Piece → Bool
  | [] => true
  | p :: ps => p.isBlank && isBlankBranch ps

def allBlank : List (List Piece) → Bool
  | [] => true
  | branch :: branches => isBlankBranch branch && allBlank branches

end

mutual

def Piece.ends : Piece → List UInt8 → List (List UInt8)
  | .literal c, bs => (afterBytes? (charBytes c) bs).toList
  | .any, bs =>
      match bs with
      | b :: bs => if b = slash then [] else [bs]
      | [] => []
  | .many, bs => endsOver (· != slash) bs
  | .above, bs => distinctEnds (bs :: endsBehindSlash bs)
  | .beneath, bs =>
      match bs with
      | b :: bs => if b = slash then allEnds bs else []
      | [] => []
  | .between, bs =>
      match bs with
      | b :: bs => if b = slash then distinctEnds (bs :: endsBehindSlash bs) else []
      | [] => []
  | .oneOf c, bs =>
      match bs with
      | b :: bs => if c.has b then [bs] else []
      | [] => []
  | .choice branches, bs =>
      if allBlank branches then [bs] else distinctEnds (endsOfAny branches bs)

def endsOf : List Piece → List UInt8 → List (List UInt8)
  | [], bs => [bs]
  | p :: ps, bs => distinctEnds ((p.ends bs).flatMap fun rest => endsOf ps rest)

/-- What a branch can leave of the bytes; blank branches count for nothing. -/
def endsOfAny : List (List Piece) → List UInt8 → List (List UInt8)
  | [], _ => []
  | branch :: branches, bs =>
      (if isBlankBranch branch then [] else endsOf branch bs) ++ endsOfAny branches bs

end

/-- Whether a pattern matches a text. A lone double star matches everything. -/
def Pattern.accepts (p : Pattern) (text : String) : Bool :=
  match p.pieces with
  | [.above] => true
  | pieces => (endsOf pieces (textBytes text)).any List.isEmpty

/-- What turns the text of a pattern into a test of texts. -/
abbrev Reader := String → Except Fault (String → Bool)

def reader : Reader := fun text =>
  (Pattern.parse text).map Pattern.accepts

end ModuleTrace.Glob
