import StackScript.Condition
import StackScript.Operator.Builtin

/-!
# Samples

Every builtin comes with samples of its use: a script, and either a script with the same result or
the condition that is raised.
-/

namespace StackScript

/-- A sample of the use of an operator. -/
inductive Sample where
  /-- Both scripts leave the same operands. -/
  | results (script same : String)
  | raises (script : String) (condition : Condition)
deriving DecidableEq, Repr

/-- The samples of a builtin. -/
def Builtin.samples : Builtin → List Sample
  | .drop => [.results "1 2 pop" "1", .raises "pop" .stackUnderflow]
  | .duplicate =>
    [.results "1 dup" "1 1", .results "\"s\" dup" "\"s\" \"s\"", .raises "dup" .stackUnderflow]
  | .exchange => [.results "1 2 exch" "2 1", .raises "1 exch" .stackUnderflow]
  | .clear => [.results "1 2 clear" "", .results "clear" ""]
  | .count => [.results "count" "0", .results "1 2 count" "1 2 2"]
  | .index =>
    [.results "1 2 3 0 index" "1 2 3 3", .results "1 2 3 2 index" "1 2 3 1",
      .raises "1 2 3 3 index" .rangeCheck, .raises "1 -1 index" .rangeCheck,
      .raises "1 /a index" .typeCheck]
  | .roll =>
    [.results "1 2 3 3 1 roll" "3 1 2", .results "1 2 3 3 -1 roll" "2 3 1",
      .results "1 2 3 2 0 roll" "1 2 3", .results "1 2 3 0 5 roll" "1 2 3",
      .raises "1 2 3 -1 1 roll" .rangeCheck, .raises "1 2 3 1 roll" .stackUnderflow]
  | .trueValue => [.results "true" "1 1 eq"]
  | .falseValue => [.results "false" "1 2 eq"]
  | .nullValue => [.results "null" "1 array 0 get"]
  | .mark => [.results "mark" "["]
  | .openArray => [.results "[" "<<", .results "[ 1 2 counttomark" "mark 1 2 2"]
  | .closeArray =>
    [.results "[ 1 2 ] length" "2", .results "[ ] length" "0", .results "[ 1 2 ] aload pop" "1 2",
      .raises "1 2 ]" .unmatchedMark]
  | .openBlock =>
    [.results "\x7b 1 2 \x7d length" "2", .results "\x7b 1 add \x7d 0 get" "1",
      .results "\x7b \x7b 1 \x7d \x7d 0 get 0 get" "1"]
  | .closeBlock =>
    [.results "\x7b \x7d length" "0", .results "\x7b 2 3 add \x7d exec" "5",
      .raises "1 \x7d" .unmatchedMark]
  | .openDictionary => [.results "<< counttomark" "mark 0"]
  | .closeDictionary =>
    [.results "<< /a 1 /b 2 >> length" "2", .results "<< /a 1 >> /a get" "1",
      .results "<< /a 1 /a 2 >> /a get" "2", .raises "<< /a >>" .rangeCheck,
      .raises "<< 1 2 >>" .typeCheck, .raises "/a 1 >>" .unmatchedMark]
  | .clearToMark =>
    [.results "1 mark 2 3 cleartomark" "1", .raises "1 2 3 cleartomark" .unmatchedMark]
  | .countToMark =>
    [.results "mark counttomark" "mark 0", .results "1 mark 2 3 counttomark" "1 mark 2 3 2",
      .raises "1 counttomark" .unmatchedMark]
  | .add =>
    [.results "1 2 add" "3", .results "-1 1 add" "0",
      .raises "9223372036854775807 1 add" .undefinedResult, .raises "1 \"2\" add" .typeCheck,
      .raises "1 add" .stackUnderflow]
  | .sub => [.results "5 3 sub" "2", .raises "-9223372036854775808 1 sub" .undefinedResult]
  | .mul => [.results "6 7 mul" "42", .raises "9223372036854775807 2 mul" .undefinedResult]
  | .div => [.results "7 2 div" "3", .results "-7 2 div" "-3", .raises "1 0 div" .undefinedResult]
  | .mod => [.results "7 3 mod" "1", .results "-7 3 mod" "-1", .raises "1 0 mod" .undefinedResult]
  | .neg => [.results "3 neg" "-3", .raises "-9223372036854775808 neg" .undefinedResult]
  | .abs => [.results "-3 abs" "3", .results "3 abs" "3"]
  | .equal =>
    [.results "1 1 eq" "true", .results "1 2 eq" "false", .results "\"a\" /a eq" "true",
      .results "1 \"1\" eq" "false"]
  | .notEqual => [.results "1 2 neq" "true", .results "/a /a neq" "false"]
  | .less => [.results "1 2 lt" "true", .results "2 2 lt" "false"]
  | .greater => [.results "3 2 gt" "true", .results "2 2 gt" "false"]
  | .negate => [.results "true not" "false", .results "0 not" "-1", .raises "null not" .typeCheck]
  | .conjoin =>
    [.results "true false and" "false", .results "12 10 and" "8", .raises "true 1 and" .typeCheck]
  | .disjoin =>
    [.results "true false or" "true", .results "12 10 or" "14", .raises "1 null or" .typeCheck]
  | .array =>
    [.results "2 array length" "2", .results "1 array aload pop" "null",
      .raises "-1 array" .rangeCheck]
  | .unpack =>
    [.results "[ 1 2 3 ] aload pop" "1 2 3",
      .results "\x7b 1 add \x7d aload pop" "\x7b 1 add \x7d 0 get \x7b 1 add \x7d 1 get",
      .raises "1 aload" .typeCheck]
  | .fill =>
    [.results "1 2 2 array astore aload pop" "1 2", .results "0 array astore length" "0",
      .raises "1 2 array astore" .stackUnderflow, .raises "1 2 [ 0 0 ] astore" .typeCheck]
  | .length =>
    [.results "[ 1 2 3 ] length" "3", .results "\"abc\" length" "3", .results "/ab length" "2",
      .results "<< /a 1 >> length" "1", .raises "1 length" .typeCheck]
  | .get =>
    [.results "[ 1 2 3 ] 1 get" "2", .results "\"A\" 0 get" "65", .results "<< /a 1 >> /a get" "1",
      .raises "[ 1 ] 1 get" .rangeCheck, .raises "[ 1 ] -1 get" .rangeCheck,
      .raises "[ 1 ] /a get" .typeCheck, .raises "<< >> /a get" .undefinedName,
      .raises "1 0 get" .typeCheck]
  | .put =>
    [.results "3 array dup 0 42 put aload pop" "42 null null",
      .results "<< >> dup /a 1 put /a get" "1", .raises "[ 1 ] 0 2 put" .invalidAccess,
      .raises "1 array 1 2 put" .rangeCheck, .raises "\"a\" 0 66 put" .invalidAccess,
      .raises "1 0 2 put" .typeCheck]
  | .dictionary => [.results "10 dict length" "0", .raises "-1 dict" .rangeCheck]
  | .define =>
    [.results "<< >> begin /a 1 def a end" "1", .results "<< >> begin /a 1 def /a 2 def a end" "2",
      .raises "<< >> begin 1 2 def end" .typeCheck, .raises "1 def" .stackUnderflow]
  | .openScope =>
    [.results "<< /a 1 >> begin a end" "1",
      .results "<< /a 1 >> begin << /a 2 >> begin a end a end" "2 1", .raises "1 begin" .typeCheck]
  | .closeScope => [.results "<< >> begin end" "", .raises "end" .scopeUnderflow]
  | .load =>
    [.results "<< /a 2 >> begin /a load end" "2",
      .results "<< /a \x7b 1 \x7d >> begin /a load length end" "1",
      .raises "/nope load" .undefinedName]
  | .locate =>
    [.results "/add where exch pop" "true", .results "/nope where" "false",
      .results "<< /a 1 >> begin /a where pop /a get end" "1"]
  | .known =>
    [.results "<< /a 1 >> /a known" "true", .results "<< /a 1 >> /b known" "false",
      .raises "[ ] /a known" .typeCheck]
  | .currentScope =>
    [.results "<< /a 1 >> begin currentdict /a get end" "1",
      .results "<< >> begin currentdict length end" "0"]
  | .execute =>
    [.results "1 exec" "1", .results "\x7b 1 2 add \x7d exec" "3",
      .results "1 2 /add load exec" "3", .raises "exec" .stackUnderflow]
  | .execIf =>
    [.results "true \x7b 1 \x7d if" "1", .results "false \x7b 1 \x7d if" "",
      .raises "1 \x7b 1 \x7d if" .typeCheck, .raises "true [ 1 ] if" .typeCheck]
  | .execEither =>
    [.results "true \x7b 1 \x7d \x7b 2 \x7d ifelse" "1",
      .results "false \x7b 1 \x7d \x7b 2 \x7d ifelse" "2",
      .raises "null \x7b 1 \x7d \x7b 2 \x7d ifelse" .typeCheck]
  | .repeatBlock =>
    [.results "4 \x7b 1 \x7d repeat" "1 1 1 1", .results "0 \x7b 1 \x7d repeat" "",
      .results "2 \x7b 2 \x7b 1 \x7d repeat \x7d repeat" "1 1 1 1",
      .results "5 \x7b 1 break \x7d repeat" "1", .raises "-1 \x7b 1 \x7d repeat" .rangeCheck,
      .raises "2 \x7b 1 0 div \x7d repeat" .undefinedResult]
  | .loop =>
    [.results "0 \x7b 1 add dup 3 eq \x7b break \x7d if \x7d loop" "3",
      .results "\x7b \x7b break \x7d \x7b 1 \x7d finally \x7d loop" "1",
      .raises "\x7b stop \x7d loop" .stop]
  | .leaveLoop =>
    [.results "\x7b 1 break 2 \x7d loop" "1", .raises "break" .strayBreak,
      .raises "\x7b break \x7d exec" .strayBreak]
  | .stop => [.results "1 \x7b stop \x7d stopped" "1 true", .raises "stop" .stop]
  | .stopped =>
    [.results "\x7b 1 \x7d stopped" "1 false", .results "\x7b 1 0 div \x7d stopped" "1 0 true",
      .results "\x7b nope \x7d stopped" "true",
      .results "\x7b \x7b break \x7d stopped \x7d loop" "", .raises "1 stopped" .typeCheck]
  | .ensure =>
    [.results "\x7b 1 \x7d \x7b 2 \x7d finally" "1 2",
      .results "\x7b \x7b 1 0 div \x7d \x7b 2 \x7d finally \x7d stopped" "1 0 2 true",
      .raises "\x7b stop \x7d \x7b 2 \x7d finally" .stop]
  | .bind =>
    [.results "\x7b 1 2 add \x7d bind exec" "3", .results "\x7b add \x7d bind 0 get" "/add load",
      .results "\x7b \x7b add \x7d \x7d bind 0 get 0 get" "/add load",
      .results "\x7b nope \x7d bind 0 get" "\x7b nope \x7d 0 get",
      .results "\x7b \x7d bind length" "0", .raises "[ 1 ] bind" .typeCheck]

end StackScript
