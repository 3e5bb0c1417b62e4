/-!
Words with a meaning in the grammar of TypeScript: the reserved words, the two that are reserved
inside asynchronous and generator functions, those reserved in strict code, and the words that mean
something only in some places. `Keyword.spelling` and `Keyword.ofSpelling?` are inverse to each other.
-/

set_option autoImplicit false

namespace VueOptions.Script

inductive Keyword
  | break_ | case | catch_ | class_ | const_ | continue_ | debugger | default_ | delete | do_
  | else_ | enum | export_ | extends_ | false_ | finally_ | for_ | function | if_ | import_
  | in_ | instanceof | new_ | null_ | return_ | super | switch | this_ | throw_ | true_ | try_
  | typeof | var | void | while_ | with_ | await | yield | implements | interface | let_
  | package | private_ | protected_ | public_ | static_ | abstract | accessor | any | as_
  | assert | asserts | async | bigint | boolean | constructor | declare | defer | from_ | get
  | global | infer | intrinsic | is_ | keyof | meta_ | module_ | namespace_ | never | number
  | object | of | out | override | readonly | require | satisfies | set_ | source | string
  | symbol | target | type | undefined | unique | unknown | using_
  deriving DecidableEq, Repr

namespace Keyword

def spelling : Keyword → List Char
  | .break_ => ['b', 'r', 'e', 'a', 'k']
  | .case => ['c', 'a', 's', 'e']
  | .catch_ => ['c', 'a', 't', 'c', 'h']
  | .class_ => ['c', 'l', 'a', 's', 's']
  | .const_ => ['c', 'o', 'n', 's', 't']
  | .continue_ => ['c', 'o', 'n', 't', 'i', 'n', 'u', 'e']
  | .debugger => ['d', 'e', 'b', 'u', 'g', 'g', 'e', 'r']
  | .default_ => ['d', 'e', 'f', 'a', 'u', 'l', 't']
  | .delete => ['d', 'e', 'l', 'e', 't', 'e']
  | .do_ => ['d', 'o']
  | .else_ => ['e', 'l', 's', 'e']
  | .enum => ['e', 'n', 'u', 'm']
  | .export_ => ['e', 'x', 'p', 'o', 'r', 't']
  | .extends_ => ['e', 'x', 't', 'e', 'n', 'd', 's']
  | .false_ => ['f', 'a', 'l', 's', 'e']
  | .finally_ => ['f', 'i', 'n', 'a', 'l', 'l', 'y']
  | .for_ => ['f', 'o', 'r']
  | .function => ['f', 'u', 'n', 'c', 't', 'i', 'o', 'n']
  | .if_ => ['i', 'f']
  | .import_ => ['i', 'm', 'p', 'o', 'r', 't']
  | .in_ => ['i', 'n']
  | .instanceof => ['i', 'n', 's', 't', 'a', 'n', 'c', 'e', 'o', 'f']
  | .new_ => ['n', 'e', 'w']
  | .null_ => ['n', 'u', 'l', 'l']
  | .return_ => ['r', 'e', 't', 'u', 'r', 'n']
  | .super => ['s', 'u', 'p', 'e', 'r']
  | .switch => ['s', 'w', 'i', 't', 'c', 'h']
  | .this_ => ['t', 'h', 'i', 's']
  | .throw_ => ['t', 'h', 'r', 'o', 'w']
  | .true_ => ['t', 'r', 'u', 'e']
  | .try_ => ['t', 'r', 'y']
  | .typeof => ['t', 'y', 'p', 'e', 'o', 'f']
  | .var => ['v', 'a', 'r']
  | .void => ['v', 'o', 'i', 'd']
  | .while_ => ['w', 'h', 'i', 'l', 'e']
  | .with_ => ['w', 'i', 't', 'h']
  | .await => ['a', 'w', 'a', 'i', 't']
  | .yield => ['y', 'i', 'e', 'l', 'd']
  | .implements => ['i', 'm', 'p', 'l', 'e', 'm', 'e', 'n', 't', 's']
  | .interface => ['i', 'n', 't', 'e', 'r', 'f', 'a', 'c', 'e']
  | .let_ => ['l', 'e', 't']
  | .package => ['p', 'a', 'c', 'k', 'a', 'g', 'e']
  | .private_ => ['p', 'r', 'i', 'v', 'a', 't', 'e']
  | .protected_ => ['p', 'r', 'o', 't', 'e', 'c', 't', 'e', 'd']
  | .public_ => ['p', 'u', 'b', 'l', 'i', 'c']
  | .static_ => ['s', 't', 'a', 't', 'i', 'c']
  | .abstract => ['a', 'b', 's', 't', 'r', 'a', 'c', 't']
  | .accessor => ['a', 'c', 'c', 'e', 's', 's', 'o', 'r']
  | .any => ['a', 'n', 'y']
  | .as_ => ['a', 's']
  | .assert => ['a', 's', 's', 'e', 'r', 't']
  | .asserts => ['a', 's', 's', 'e', 'r', 't', 's']
  | .async => ['a', 's', 'y', 'n', 'c']
  | .bigint => ['b', 'i', 'g', 'i', 'n', 't']
  | .boolean => ['b', 'o', 'o', 'l', 'e', 'a', 'n']
  | .constructor => ['c', 'o', 'n', 's', 't', 'r', 'u', 'c', 't', 'o', 'r']
  | .declare => ['d', 'e', 'c', 'l', 'a', 'r', 'e']
  | .defer => ['d', 'e', 'f', 'e', 'r']
  | .from_ => ['f', 'r', 'o', 'm']
  | .get => ['g', 'e', 't']
  | .global => ['g', 'l', 'o', 'b', 'a', 'l']
  | .infer => ['i', 'n', 'f', 'e', 'r']
  | .intrinsic => ['i', 'n', 't', 'r', 'i', 'n', 's', 'i', 'c']
  | .is_ => ['i', 's']
  | .keyof => ['k', 'e', 'y', 'o', 'f']
  | .meta_ => ['m', 'e', 't', 'a']
  | .module_ => ['m', 'o', 'd', 'u', 'l', 'e']
  | .namespace_ => ['n', 'a', 'm', 'e', 's', 'p', 'a', 'c', 'e']
  | .never => ['n', 'e', 'v', 'e', 'r']
  | .number => ['n', 'u', 'm', 'b', 'e', 'r']
  | .object => ['o', 'b', 'j', 'e', 'c', 't']
  | .of => ['o', 'f']
  | .out => ['o', 'u', 't']
  | .override => ['o', 'v', 'e', 'r', 'r', 'i', 'd', 'e']
  | .readonly => ['r', 'e', 'a', 'd', 'o', 'n', 'l', 'y']
  | .require => ['r', 'e', 'q', 'u', 'i', 'r', 'e']
  | .satisfies => ['s', 'a', 't', 'i', 's', 'f', 'i', 'e', 's']
  | .set_ => ['s', 'e', 't']
  | .source => ['s', 'o', 'u', 'r', 'c', 'e']
  | .string => ['s', 't', 'r', 'i', 'n', 'g']
  | .symbol => ['s', 'y', 'm', 'b', 'o', 'l']
  | .target => ['t', 'a', 'r', 'g', 'e', 't']
  | .type => ['t', 'y', 'p', 'e']
  | .undefined => ['u', 'n', 'd', 'e', 'f', 'i', 'n', 'e', 'd']
  | .unique => ['u', 'n', 'i', 'q', 'u', 'e']
  | .unknown => ['u', 'n', 'k', 'n', 'o', 'w', 'n']
  | .using_ => ['u', 's', 'i', 'n', 'g']

def all : List Keyword :=
  [.break_, .case, .catch_, .class_, .const_, .continue_, .debugger, .default_, .delete, .do_,
   .else_, .enum, .export_, .extends_, .false_, .finally_, .for_, .function, .if_, .import_,
   .in_, .instanceof, .new_, .null_, .return_, .super, .switch, .this_, .throw_, .true_, .try_,
   .typeof, .var, .void, .while_, .with_, .await, .yield, .implements, .interface, .let_,
   .package, .private_, .protected_, .public_, .static_, .abstract, .accessor, .any, .as_,
   .assert, .asserts, .async, .bigint, .boolean, .constructor, .declare, .defer, .from_, .get,
   .global, .infer, .intrinsic, .is_, .keyof, .meta_, .module_, .namespace_, .never, .number,
   .object, .of, .out, .override, .readonly, .require, .satisfies, .set_, .source, .string,
   .symbol, .target, .type, .undefined, .unique, .unknown, .using_]

def ofSpelling? (cs : List Char) : Option Keyword := all.find? fun k => k.spelling == cs

theorem ofSpelling?_spelling (k : Keyword) : ofSpelling? k.spelling = some k := by
  cases k <;> decide

theorem spelling_of_ofSpelling? {cs : List Char} {k : Keyword} (h : ofSpelling? cs = some k) :
    k.spelling = cs := by
  simpa using List.find?_some h

/-- Words that name nothing in any place. -/
def isReserved : Keyword → Bool
  | .break_ | .case | .catch_ | .class_ | .const_ | .continue_ | .debugger | .default_
  | .delete | .do_ | .else_ | .enum | .export_ | .extends_ | .false_ | .finally_ | .for_
  | .function | .if_ | .import_ | .in_ | .instanceof | .new_ | .null_ | .return_ | .super
  | .switch | .this_ | .throw_ | .true_ | .try_ | .typeof | .var | .void | .while_ | .with_ => true
  | _ => false

/-- Words that strict code keeps for later use. -/
def isFutureReserved : Keyword → Bool
  | .implements | .interface | .package | .private_ | .protected_ | .public_ | .static_ => true
  | _ => false

/-- Words that may stand before a declaration, a class member or a parameter. -/
def isModifier : Keyword → Bool
  | .abstract | .accessor | .async | .const_ | .declare | .default_ | .export_ | .in_
  | .public_ | .private_ | .protected_ | .override | .out | .readonly | .static_ => true
  | _ => false

end Keyword

end VueOptions.Script
