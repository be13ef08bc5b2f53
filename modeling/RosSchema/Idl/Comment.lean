/-!
# Comments in documents

Comments start with two slashes and end before the next line break, or they stand between `/*` and
`*/`. Inside a string there are no comments. `stripComments` takes them all out.
-/

namespace RosSchema.Idl

/-- What the text at a point of a document is part of. -/
inductive Context where
  | code
  | string
  | lineComment
  | blockComment
  deriving DecidableEq, Repr

def strip : Context → List Char → List Char
  | _, [] => []
  | .code, '/' :: '/' :: rest => strip .lineComment rest
  | .code, '/' :: '*' :: rest => ' ' :: strip .blockComment rest
  | .code, '"' :: rest => '"' :: strip .string rest
  | .code, c :: rest => c :: strip .code rest
  | .string, '\\' :: c :: rest => '\\' :: c :: strip .string rest
  | .string, '"' :: rest => '"' :: strip .code rest
  | .string, c :: rest => c :: strip .string rest
  | .lineComment, '\n' :: rest => '\n' :: strip .code rest
  | .lineComment, _ :: rest => strip .lineComment rest
  | .blockComment, '*' :: '/' :: rest => strip .code rest
  | .blockComment, _ :: rest => strip .blockComment rest

/-- A document without its comments. A comment of the second kind leaves a space, so that what stands
around it stays apart. -/
def stripComments (cs : List Char) : List Char := strip .code cs

end RosSchema.Idl
