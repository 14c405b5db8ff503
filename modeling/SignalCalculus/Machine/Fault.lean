import SignalCalculus.Script.Parse
import SignalCalculus.Term.Build
import SignalCalculus.Wire.Value

set_option autoImplicit false

namespace SignalCalculus

open Text

inductive EvalError where
  | emptyTerm
  | appliedNumber (number : Tagged) (arg : Term)
  | appliedData (data : Symbol) (arg : Term)
  | expectedNumber (got : Term)
  | mixedModulation (a b : Tagged)
  | modulatedOperand (number : Tagged)
  | divisionByZero (dividend : Int)
  | alreadyModulated (number : Tagged)
  | notModulated (number : Tagged)
  | isnilOfNumber (number : Tagged)
  | expectedList (consumer : Fn) (got : Term)
  | openPicture (last : Value)
  | expectedPoint (got : Value)
  | stepLimit (limit : Int)

namespace EvalError

def label : EvalError → String
  | emptyTerm => "EvalEmptyTree"
  | appliedNumber .. => "AppOnNumber"
  | appliedData .. => "AppOnNonCallable"
  | expectedNumber _ => "AppExpectsNumButFunProvided"
  | mixedModulation .. => "TwoNumbersOpInDifferentModulation"
  | modulatedOperand _ => "ArithmeticOnModulatedNumber"
  | divisionByZero _ => "DivisionByZero"
  | alreadyModulated _ => "ModOnModulatedNumber"
  | notModulated _ => "DemOnDemodulatedNumber"
  | isnilOfNumber _ => "IsNilAppOnANumber"
  | expectedList .. | openPicture _ => "ExpectedList"
  | expectedPoint _ => "ExpectedPoint"
  | stepLimit _ => "StepLimitExceeded"

def message : EvalError → String
  | emptyTerm => "nothing to evaluate"
  | appliedNumber number arg => "number " ++ number.account ++ " applied to argument " ++ arg.account
  | appliedData data arg => "non-callable value " ++ data.account ++ " applied to argument " ++ arg.account
  | expectedNumber got => "expected a number, got " ++ got.account
  | mixedModulation a b => "numbers in different modulation: " ++ a.account ++ " and " ++ b.account
  | modulatedOperand number => "arithmetic on modulated number " ++ number.account
  | divisionByZero dividend => "division of " ++ String.ofList (decimal dividend) ++ " by zero"
  | alreadyModulated number => "mod applied to already modulated number " ++ number.account
  | notModulated number => "dem applied to demodulated number " ++ number.account
  | isnilOfNumber number => "isnil applied to number " ++ number.account
  | expectedList consumer got => String.ofList consumer.word ++ " expects a list, got " ++ got.account
  | openPicture last => String.ofList Fn.draw.word ++ " expects a list, got " ++ last.account
  | expectedPoint got => "draw expects 'vec x y' points, got " ++ got.account
  | stepLimit limit => "reduction exceeded " ++ String.ofList (decimal limit) ++ " steps"

end EvalError

inductive LinkError where
  | noAddress
  | status (code : Int)
  | unreachable (url reason : String)
  | notText
  | noReply (bits : List Char)
  | reported (text : String) (code : Option Int)

namespace LinkError

def code? : LinkError → Option Int
  | status code => some code
  | reported _ code => code
  | _ => none

def message : LinkError → String
  | noAddress => "no server URL given and GALAXY_SERVER_URL is not set"
  | status code => "server answered HTTP " ++ String.ofList (decimal code)
  | unreachable url reason => "request to " ++ url ++ " failed: " ++ reason
  | notText => "reply body is not ASCII bits"
  | noReply bits => "no canned reply left for request " ++ String.ofList (quoted bits)
  | reported text _ => text

end LinkError

inductive ProtocolError where
  | noLink (bits : List Char)
  | noReply
  | channelClosed
  | reductionClosed
  | alreadyStarted
  | nothingWaiting
  | alreadyAnswered (seq : Int)
  | link (e : LinkError)

namespace ProtocolError

def label : ProtocolError → String
  | noLink _ => "SendWithoutTransport"
  | noReply | channelClosed | reductionClosed => "PeerGone"
  | alreadyStarted | nothingWaiting | alreadyAnswered _ => "ResumeMisuse"
  | link _ => "TransportError"

def message : ProtocolError → String
  | noLink bits => "send of " ++ String.ofList (quoted bits) ++ " requested but no transport configured"
  | noReply => "reply channel closed before a response arrived"
  | channelClosed => "transport channel is closed"
  | reductionClosed => "reduction was cancelled or failed"
  | alreadyStarted => "reduction already started; use resume()"
  | nothingWaiting => "no send is waiting for a reply"
  | alreadyAnswered seq => "send #" ++ String.ofList (decimal seq) ++ " was already answered"
  | link e => e.message

end ProtocolError

inductive RequestError where
  | unknownScheme (url : List Char)
  | badBrackets
  | badFutureHost
  | bracketedQuad
  | notHost (found : List Char)
  /-- From `first` to `last` the bits hold characters beyond the ASCII range; `found` is the first. -/
  | notAscii (found : Char) (first last : Nat)

namespace RequestError

def label : RequestError → String
  | unknownScheme _ | badBrackets | badFutureHost | bracketedQuad | notHost _ => "ValueError"
  | notAscii .. => "UnicodeEncodeError"

def message : RequestError → String
  | unknownScheme url => "unknown url type: " ++ String.ofList (quoted url)
  | badBrackets => "Invalid IPv6 URL"
  | badFutureHost => "IPvFuture address is invalid"
  | bracketedQuad => "An IPv4 address cannot be in brackets"
  | notHost found =>
    String.ofList (quoted found) ++ " does not appear to be an IPv4 or IPv6 address"
  | notAscii found first last =>
    (if first = last then
      "'ascii' codec can't encode character '" ++ String.ofList (codeEscape found) ++
        "' in position " ++ String.ofList (natural first)
    else
      "'ascii' codec can't encode characters in position " ++ String.ofList (natural first) ++ "-" ++
        String.ofList (natural last)) ++
    ": ordinal not in range(128)"

end RequestError

def BuildError.label : BuildError → String
  | .noFunction => "NoAppFunProvided"
  | .noArgument _ => "NoAppArgProvided"
  | .listNotClosed => "ListNotClosed"
  | .commaWithoutElement => "ListCommaWithoutElement"
  | .unexpectedTerm _ => "ListSyntaxUnexpectedNode"
  | .severalCommas => "ListSyntaxSeveralCommas"
  | .closingAfterComma => "ListSyntaxClosingAfterComma"
  | .unexpectedMark _ => "UnexpectedSyntax"
  | .trailing _ => "TrailingOps"

def ParseError.label : ParseError → String
  | .unknownWord .. => "UnknownToken"
  | _ => "ParseError"

def Wire.WireError.label : Wire.WireError → String
  | .badPrefix .. => "BadPrefix"
  | .badWidth _ => "BadWidthCode"
  | .trailing .. => "TrailingBits"
  | .invalidBit .. => "InvalidBit"
  | .notBinary _ => "ValueError"

inductive Fault where
  | wire (e : Wire.WireError)
  | spelling (e : SpellingError)
  | build (e : BuildError)
  | eval (e : EvalError)
  | protocol (e : ProtocolError)
  | parse (e : ParseError)
  | request (e : RequestError)
  /-- A basis function without a law stands at the head of a term. -/
  | lawless (fn : Fn)
  /-- A reduction that was given up before it began was run all the same, and had no result. -/
  | resultless
  /-- A fault without a family has ended a pair of tasks. -/
  | grouped (fault : Fault)

inductive Family where
  | codec | build | eval | protocol | parse
  deriving DecidableEq, Repr

def Family.label : Family → String
  | .codec => "CodecError"
  | .build => "BuildError"
  | .eval => "EvalError"
  | .protocol => "ProtocolError"
  | .parse => "ParseError"

namespace Fault

def label : Fault → String
  | wire e => e.label
  | spelling _ => "CodecError"
  | build e => e.label
  | eval e => e.label
  | protocol e => e.label
  | parse e => e.label
  | request e => e.label
  | lawless _ => "KeyError"
  | resultless => "AssertionError"
  | grouped _ => "ExceptionGroup"

def message : Fault → String
  | wire e => e.message
  | spelling e => e.message
  | build e => e.message
  | eval e => e.message
  | protocol e => e.message
  | parse e => e.message
  | request e => e.message
  | lawless g => (Symbol.fn g).account
  | resultless => ""
  | grouped _ => "unhandled errors in a TaskGroup (1 sub-exception)"

def family? : Fault → Option Family
  | wire (.notBinary _) => none
  | wire _ | spelling _ => some .codec
  | build _ => some .build
  | eval _ => some .eval
  | protocol _ => some .protocol
  | parse _ => some .parse
  | request _ | lawless _ | resultless | grouped _ => none

end Fault

end SignalCalculus
