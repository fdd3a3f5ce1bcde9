import Manifest.Yaml.Mark

/-! # Faults of a YAML text

What can be wrong with a YAML text, where the fault was seen, and how it is worded. The first group
of causes is about single tokens, the second about the order in which tokens stand. -/

namespace Manifest.Yaml

/-- Why a text is not YAML. -/
inductive Cause
  -- indentation and separation
  | invalidIndentation
  | tabInBlockIndentation
  | tabInContext
  | whitespaceExpected
  | commentNotSeparated
  | contentAfterDocumentEnd
  | nestingTooDeep
  | unexpectedCharacter (c : Char)
  -- keys, values and entries
  | keyRequired
  | keyMissing
  | keyNotAllowed
  | valueNotAllowed
  | valueMisplaced
  | valueNotSeparated
  | valueBeforeBracket
  | entryOutsideBlock
  | entryNotAllowed
  | entryNotSeparated
  -- plain scalars
  | plainIndentation
  | plainDash
  | plainTab
  | plainEmpty
  -- quoted scalars
  | quotedIndentation
  | quotedDocumentIndicator
  | quotedUnclosed
  | quotedTab
  | quotedTrailing
  | escapeUnknown
  | escapeNotHexadecimal
  | escapeNotCharacter
  -- block scalars
  | blockHeader
  | blockIndentZero
  | blockStartsWithTab
  | blockLineIndentation
  -- anchors and tags
  | anchorEmpty
  | tagBang
  | tagDirectiveBang
  | tagPrefix
  | tagDirectiveTrailing
  | tagEmpty
  | tagVerbatimUnclosed
  | tagTrailing
  | uriEscape
  | uriLeadingByte
  | uriTrailingByte
  | uriCharacter
  -- directives
  | directiveName
  | directiveCharacter
  | directiveTrailing
  | versionMissing
  | versionPoint
  | versionTooLong
  | versionDuplicate
  | documentEndMissing
  | documentStartExpected
  -- nodes
  | tokensEnded
  | anchorUnknown
  | handleUndeclared
  | nodeExpected
  | blockEntryExpected
  | blockKeyExpected
  | flowSequenceSeparator
  | flowMappingSeparator
deriving DecidableEq, Repr

/-- The wording of a cause. -/
def Cause.message : Cause → String
  | invalidIndentation => "invalid indentation"
  | tabInBlockIndentation => "tabs disallowed within this context (block indentation)"
  | tabInContext => "tabs disallowed in this context"
  | whitespaceExpected => "expected whitespace"
  | commentNotSeparated => "comments must be separated from other tokens by whitespace"
  | contentAfterDocumentEnd => "invalid content after document end marker"
  | nestingTooDeep => "recursion limit exceeded"
  | unexpectedCharacter c => "unexpected character: `" ++ String.singleton c ++ "'"
  | keyRequired => "simple key expect ':'"
  | keyMissing => "simple key expected"
  | keyNotAllowed => "mapping keys are not allowed in this context"
  | valueNotAllowed => "mapping values are not allowed in this context"
  | valueMisplaced => "illegal placement of ':' indicator"
  | valueNotSeparated => "':' must be followed by a valid YAML whitespace"
  | valueBeforeBracket => "':' may not precede any of `[\x7b` in flow mapping"
  | entryOutsideBlock => "\"-\" is only valid inside a block"
  | entryNotAllowed => "block sequence entries are not allowed in this context"
  | entryNotSeparated => "'-' must be followed by a valid YAML whitespace"
  | plainIndentation => "invalid indentation in flow construct"
  | plainDash => "plain scalar cannot start with '-' followed by ,[]\x7b\x7d"
  | plainTab => "while scanning a plain scalar, found a tab"
  | plainEmpty => "unexpected end of plain scalar"
  | quotedIndentation => "invalid indentation in quoted scalar"
  | quotedDocumentIndicator =>
    "while scanning a quoted scalar, found unexpected document indicator"
  | quotedUnclosed => "while scanning a quoted scalar, found unexpected end of stream"
  | quotedTab => "tab cannot be used as indentation"
  | quotedTrailing => "invalid trailing content after double-quoted scalar"
  | escapeUnknown => "while parsing a quoted scalar, found unknown escape character"
  | escapeNotHexadecimal =>
    "while parsing a quoted scalar, did not find expected hexadecimal number"
  | escapeNotCharacter =>
    "while parsing a quoted scalar, found invalid Unicode character escape code"
  | blockHeader => "while scanning a block scalar, did not find expected comment or line break"
  | blockIndentZero =>
    "while scanning a block scalar, found an indentation indicator equal to 0"
  | blockStartsWithTab => "a block scalar content cannot start with a tab"
  | blockLineIndentation => "wrongly indented line in block scalar"
  | anchorEmpty =>
    "while scanning an anchor or alias, did not find expected alphabetic or numeric character"
  | tagBang => "while scanning a tag, did not find expected '!'"
  | tagDirectiveBang => "while parsing a tag directive, did not find expected '!'"
  | tagPrefix => "invalid global tag character"
  | tagDirectiveTrailing => "while scanning TAG, did not find expected whitespace or line break"
  | tagEmpty => "while parsing a tag, did not find expected tag URI"
  | tagVerbatimUnclosed => "while scanning a verbatim tag, did not find the expected '>'"
  | tagTrailing => "while scanning a tag, did not find expected whitespace or line break"
  | uriEscape => "while parsing a tag, found an invalid escape sequence"
  | uriLeadingByte => "while parsing a tag, found an incorrect leading UTF-8 byte"
  | uriTrailingByte => "while parsing a tag, found an incorrect trailing UTF-8 byte"
  | uriCharacter => "while parsing a tag, found an invalid UTF-8 codepoint"
  | directiveName => "while scanning a directive, could not find expected directive name"
  | directiveCharacter =>
    "while scanning a directive, found unexpected non-alphabetical character"
  | directiveTrailing =>
    "while scanning a directive, did not find expected comment or line break"
  | versionMissing => "while scanning a YAML directive, did not find expected version number"
  | versionPoint =>
    "while scanning a YAML directive, did not find expected digit or '.' character"
  | versionTooLong => "while scanning a YAML directive, found extremely long version number"
  | versionDuplicate => "duplicate version directive"
  | documentEndMissing => "missing explicit document end marker before directive"
  | documentStartExpected => "did not find expected <document start>"
  | tokensEnded => "unexpected eof"
  | anchorUnknown => "while parsing node, found unknown anchor"
  | handleUndeclared => "the handle wasn't declared"
  | nodeExpected => "while parsing a node, did not find expected node content"
  | blockEntryExpected =>
    "while parsing a block collection, did not find expected '-' indicator"
  | blockKeyExpected => "while parsing a block mapping, did not find expected key"
  | flowSequenceSeparator => "while parsing a flow sequence, expected ',' or ']'"
  | flowMappingSeparator => "while parsing a flow mapping, did not find expected ',' or '\x7d'"

/-- A cause and the place where it was seen. -/
structure Fault where
  cause : Cause
  mark : Mark
deriving DecidableEq, Repr

/-- The wording of a fault. -/
def Fault.message (f : Fault) : String := f.cause.message ++ " at " ++ f.mark.describe

end Manifest.Yaml
