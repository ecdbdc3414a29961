import GroovySharp.Grammar.Table

/-!
# Parse table of programs

The LALR(1) table of the grammar for whole programs. Rows are states, counted from zero; sets of
terminals are written as numbers in which bit `i` stands for the terminal of index `i`.
-/

namespace GroovySharp.Grammar.ProgramTable

def usualShift : Terminal → Nat
  | .breakWord => 33 | .caseWord => 342 | .catchWord => 170 | .continueWord => 34 | .defWord => 102
  | .defaultWord => 339 | .elseWord => 322 | .falseWord => 61 | .finallyWord => 169 | .forWord => 29
  | .ifWord => 27 | .importWord => 6 | .inWord => 246 | .newWord => 51 | .nullWord => 62
  | .returnWord => 32 | .switchWord => 30 | .throwWord => 35 | .trueWord => 60 | .tryWord => 31
  | .voidWord => 8 | .whileWord => 28 | .logicalAnd => 114 | .arrow => 154 | .assign => 103
  | .bang => 43 | .colon => 211 | .comma => 152 | .compare => 117 | .decrement => 108 | .dot => 109
  | .equal => 115 | .greaterEqual => 129 | .greater => 127 | .increment => 107 | .openBrace => 80
  | .lessEqual => 128 | .openParen => 50 | .openBracket => 63 | .less => 126 | .minus => 42
  | .notEqual => 116 | .logicalOr => 106 | .percent => 141 | .plus => 137 | .power => 104
  | .question => 105 | .closeBrace => 173 | .closeParen => 191 | .closeBracket => 131
  | .safeDot => 110 | .semicolon => 37 | .slash => 140 | .star => 139 | .wildcard => 142
  | .callName => 49 | .commandName => 24 | .name => 48 | .decimal => 56 | .integer => 55
  | .tripleString => 59 | .singleString => 57 | .doubleString => 58 | .endOfInput => 67
  | _ => 0

def usualGoto : Nonterminal → Nat
  | .compilationUnit => 1 | .importDirective => 3 | .qualifiedName => 71 | .methodDeclaration => 4
  | .parameters => 222 | .parameter => 224 | .statement => 99 | .localDeclaration => 9
  | .expressionStatement => 10 | .block => 22 | .blockItems => 96 | .finalStatement => 98
  | .ifStatement => 11 | .whileStatement => 12 | .classicFor => 13 | .forInit => 159
  | .forCondition => 241 | .forUpdate => 295 | .forIn => 14 | .forEach => 15
  | .switchStatement => 16 | .switchCase => 341 | .tryStatement => 17 | .catchClause => 168
  | .finallyClause => 167 | .returnStatement => 18 | .breakStatement => 19
  | .continueStatement => 20 | .throwStatement => 21 | .emptyStatement => 23 | .commandCall => 26
  | .commandArgument => 77 | .expression => 192 | .assignment => 91 | .conditional => 38
  | .logicalOr => 40 | .logicalAnd => 44 | .equality => 46 | .relational => 54 | .additive => 64
  | .multiplicative => 65 | .power => 66 | .prefixed => 39 | .postfixed => 41 | .primary => 45
  | .creationType => 122 | .arguments => 119 | .argument => 190 | .namedArgument => 193
  | .closure => 92 | .closureParameters => 153 | .listLiteral => 52 | .mapLiteral => 53
  | .mapEntry => 132 | .literal => 47 | .unitItems => 2 | .nameParts => 144 | .moreParameters => 278
  | .statements => 97 | .moreUpdates => 330 | .switchCases => 338 | .catchClauses => 166
  | .moreCommandArguments => 151 | .typeQualifiers => 123 | .moreArguments => 258
  | .moreClosureParameters => 236 | .moreElements => 204 | .moreEntries => 207

private def programRows0 : List Row := [
  ⟨0x7f880168023fee99, [(1, 0x8000000000000000)], [upon .defWord 7, upon .openBrace 36,
    past .statement 5, past .assignment 25]⟩,
  ⟨0x8000000000000000, [], []⟩,
  ⟨0x7f880168023fee99, [(0, 0x8000000000000000)], [upon .defWord 7, upon .openBrace 36,
    past .importDirective 68, past .methodDeclaration 69, past .statement 70, past .assignment 25]⟩,
  .reducing 169 0xff880168023fee99, .reducing 170 0xff880168023fee99,
  .reducing 171 0xff880168023fee99, .expecting .name 72,
  ⟨0x280000000000000, [], [upon .callName 73, upon .name 74]⟩, .expecting .callName 75, .ending 14,
  .ending 15, .ending 16, .ending 17, .ending 18, .ending 19, .ending 20, .ending 21, .ending 22,
  .ending 23, .ending 24, .ending 25, .ending 26, .ending 27, .ending 28,
  ⟨valueStart, [], [upon .name 76, past .conditional 78, past .closure 79, past .prefixed 81]⟩,
  .expecting .semicolon 82, .expecting .semicolon 83, .expecting .openParen 84,
  .expecting .openParen 85, .expecting .openParen 86, .expecting .openParen 87, .block 88,
  ⟨0x7e88016802046080, [], [upon .semicolon 90, past .expression 89]⟩, .expecting .semicolon 93,
  .expecting .semicolon 94, .value 95,
  ⟨statementStart, [(38, 0x800000000000)], [upon .openBrace 36, past .assignment 100, past .commandCall 101]⟩,
  .ending 82, .reducing 89 0xb80000c000000, ⟨0x200001000000, [(113, 0x3bdf939c400000)], []⟩,
  ⟨0x440000000000, [(91, 0xb80000c000000)], []⟩,
  ⟨0x4004460000000, [(115, 0x3bff939d400000)], [upon .openBracket 111]⟩,
  ⟨plainStart, [], [past .prefixed 112]⟩, ⟨plainStart, [], [past .prefixed 113]⟩,
  ⟨0x400000, [(93, 0xbc4000c000000)], []⟩, .yielding 118,
  ⟨0x20090000000, [(95, 0xbc4000c400000)], []⟩, .yielding 130]

private def programRows1 : List Row := [ .called 131 118, .expecting .openParen 120, .value 121,
  ⟨0x280000000000000, [], [upon .callName 124, upon .name 125]⟩, .yielding 137, .yielding 138,
  ⟨0x9300000000, [(97, 0xbc6009c400000)], []⟩, .yielding 161, .yielding 162, .yielding 163,
  .yielding 164, .yielding 165, .yielding 166, .yielding 167, .yielding 168,
  ⟨0x7e82016806046080, [], [upon .colon 133, upon .name 134, upon .singleString 135,
    upon .doubleString 136, past .expression 130]⟩,
  ⟨0x110000000000, [(101, 0xbc6939c400000)], [upon .minus 138]⟩,
  ⟨0x30080000000000, [(106, 0xbd7939c400000)], []⟩, .reducing 109 0x3bdf939c400000, ⟨0, [], []⟩,
  .reducing 172 0xff880168023fee99, .reducing 173 0xff880168023fee99,
  .reducing 174 0xff880168023fee99, ⟨0x48000000000000, [], [upon .semicolon 143]⟩,
  ⟨0x40000000, [(5, 0x48000000000000)], [upon .dot 145]⟩, .expecting .openParen 146,
  ⟨0x8000001000000, [], [upon .assign 147, upon .semicolon 148]⟩, .expecting .openParen 149,
  ⟨0x801000000, [(131, 0x3cffd7f8400000)], [upon .assign 150, past .closure 118]⟩,
  ⟨0x8000000, [(84, 0x8800000000000)], []⟩, .reducing 85 0x8800008000000,
  .reducing 86 0x8800008000000,
  ⟨0x7f88016802afe699, [(38, 0x800000000000)], [upon .name 156, upon .openBrace 36,
    past .blockItems 155, past .assignment 100, past .commandCall 101]⟩,
  ⟨0x200000000000, [(113, 0x3bdf939c400000)], []⟩, .ending 32, .ending 33, .value 157, .value 158,
  ⟨0x7f88016002046090, [], [upon .semicolon 160, upon .defWord 161, upon .commandName 162,
    upon .name 163, past .assignment 164]⟩,
  .value 165, ⟨0x104, [(73, statementNext)], []⟩, .expecting .semicolon 171, .ending 78,
  .reducing 87 0xb80000c000000, .reducing 88 0xb80000c000000, .ending 79, .ending 80,
  .expecting .semicolon 172]

private def programRows2 : List Row := [ ⟨0x800000000000, [], []⟩,
  ⟨statementStart, [(36, 0x800000000000)], [upon .openBrace 36, past .finalStatement 174,
    past .statement 175, past .assignment 100, past .commandCall 101]⟩,
  .reducing 37 0x800000000000, .reducing 179 0x7f888168022fe6bb,
  ⟨0x8000000000000, [(39, 0x800000000000)], [upon .semicolon 82]⟩,
  ⟨0x8000000000000, [(40, 0x800000000000)], [upon .semicolon 83]⟩, .expecting .name 74, .value 176,
  .operand .power 177, .value 178, .operand .logicalAnd 179, .yielding 119, .yielding 120,
  ⟨0x280000000000000, [], [upon .name 180, upon .callName 181]⟩,
  ⟨0x280000000000000, [], [upon .name 182, upon .callName 183]⟩, .value 184,
  .reducing 116 0x3bff939d400000, .reducing 117 0x3bff939d400000, .operand .equality 185,
  .operand .relational 186, .operand .relational 187, .operand .relational 188, .yielding 134,
  .called 133 189, ⟨0x7e81016802046080, [], [upon .name 194]⟩, .expecting .closeParen 195,
  ⟨0x2000000000, [], [upon .openParen 120, past .arguments 196]⟩,
  ⟨0x280000000000000, [], [upon .callName 197, upon .name 198]⟩, .reducing 140 0x2000000000,
  .expecting .dot 199, .operand .additive 200, .operand .additive 201, .operand .additive 202,
  .operand .additive 203, ⟨0x2000008000000, [], [upon .closeBracket 205, upon .comma 206]⟩,
  .yielding 154, ⟨0x2000008000000, [], [upon .closeBracket 208, upon .comma 209]⟩,
  .expecting .closeBracket 210, ⟨0x804000000, [(131, 0x367fd7f9400000)], [past .closure 118]⟩,
  ⟨0x4000000, [(163, 0x367fd7f9400000)], [upon .colon 212]⟩,
  ⟨0x4000000, [(164, 0x367fd7f9400000)], [upon .colon 213]⟩, .operand .multiplicative 214,
  .operand .multiplicative 215, .operand .power 216, .operand .power 217, .operand .power 218,
  .expecting .semicolon 219, .reducing 3 0xff880168023fee99]

private def programRows3 : List Row := [ ⟨0x40000000, [(4, 0x48000000000000)], [upon .dot 220]⟩, .expecting .name 221,
  ⟨0x301000000000000, [], [upon .closeParen 223, upon .commandName 225, upon .name 226]⟩,
  .value 227, .ending 30,
  ⟨0x301000000000000, [], [upon .closeParen 229, upon .commandName 225, upon .name 226, past .parameters 228]⟩,
  .value 230, ⟨0x8000000, [(83, 0x8800000000000)], [upon .comma 231]⟩,
  ⟨valueStart, [], [past .commandArgument 232, past .conditional 78, past .closure 79, past .prefixed 81]⟩,
  .expecting .arrow 233,
  ⟨statementStart, [(38, 0x800000000000)], [upon .openBrace 36, past .blockItems 234,
    past .assignment 100, past .commandCall 101]⟩,
  .expecting .closeBrace 235,
  ⟨0x808000000, [(131, 0x3cffd7f1400000), (151, 0x800000)], [upon .comma 237, past .closure 118]⟩,
  .expecting .closeParen 238, .expecting .closeParen 239, .expecting .semicolon 240,
  ⟨0x7e88016802046080, [], [upon .semicolon 242, past .expression 243]⟩, .expecting .name 244,
  .expecting .name 245, ⟨0x800001000, [(131, 0x3c7fd7f1400000)], [past .closure 118]⟩,
  .reducing 54 0x8000000000000, .expecting .closeParen 247,
  ⟨0x104, [(71, statementNext)], [past .finallyClause 248, past .catchClause 249]⟩, .ending 72,
  .reducing 185 0xff888168023fefff, .block 250, .expecting .openParen 251, .ending 77, .ending 81,
  .reducing 34 0xff888168023fefff, .reducing 35 0x800000000000, .reducing 180 0x7f888168022fe6bb,
  .reducing 90 0xb80000c000000, .reducing 114 0x3bdf939c400000, .expecting .colon 252,
  ⟨0x400000, [(94, 0xbc4000c000000)], []⟩, .called 121 253,
  ⟨0x2000000000, [], [upon .openParen 120, past .arguments 254]⟩, .called 122 255,
  ⟨0x2000000000, [], [upon .openParen 120, past .arguments 256]⟩, .expecting .closeBracket 257,
  ⟨0x20090000000, [(96, 0xbc4000c400000)], []⟩, ⟨0x9300000000, [(98, 0xbc6009c400000)], []⟩,
  ⟨0x9300000000, [(99, 0xbc6009c400000)], []⟩, ⟨0x9300000000, [(100, 0xbc6009c400000)], []⟩,
  .yielding 132, ⟨0x1000008000000, [], [upon .closeParen 259, upon .comma 260]⟩,
  .reducing 143 0x3fffdffd400000]

private def programRows4 : List Row := [ .reducing 144 0x1000008000000, .reducing 145 0x1000008000000,
  ⟨0x804000000, [(131, 0x357fd7f9400000)], [upon .colon 261, past .closure 118]⟩, .yielding 135,
  .yielding 136, .reducing 139 0x2000000000, .expecting .dot 262, .reducing 189 0x280000000000000,
  ⟨0x110000000000, [(102, 0xbc6939c400000)], [upon .minus 138]⟩,
  ⟨0x110000000000, [(103, 0xbc6939c400000)], [upon .minus 138]⟩,
  ⟨0x110000000000, [(104, 0xbc6939c400000)], [upon .minus 138]⟩,
  ⟨0x110000000000, [(105, 0xbc6939c400000)], [upon .minus 138]⟩,
  ⟨0x2000008000000, [], [upon .closeBracket 263, upon .comma 264]⟩, .yielding 153, .value 265,
  ⟨0x2000008000000, [], [upon .closeBracket 266, upon .comma 267]⟩, .yielding 156,
  ⟨0x6200000000000000, [], [upon .name 269, upon .singleString 270, upon .doubleString 271, past .mapEntry 268]⟩,
  .yielding 157, .value 272, .value 273, .value 274,
  ⟨0x30080000000000, [(107, 0xbd7939c400000)], []⟩,
  ⟨0x30080000000000, [(108, 0xbd7939c400000)], []⟩, .reducing 110 0x3bdf939c400000,
  .reducing 111 0x3bdf939c400000, .reducing 112 0x3bdf939c400000, .reducing 2 0xff880168023fee99,
  .expecting .name 275, .reducing 175 0x48000040000000, .expecting .closeParen 276, .block 277,
  ⟨0x8000000, [(11, 0x1000000000000)], [upon .comma 279]⟩, .expecting .name 280,
  .reducing 13 0x1000008000000, .expecting .semicolon 281, .expecting .closeParen 282, .block 283,
  .expecting .semicolon 284,
  ⟨valueStart, [], [past .commandArgument 285, past .conditional 78, past .closure 79, past .prefixed 81]⟩,
  .reducing 187 0x8800008000000,
  ⟨statementStart, [(38, 0x800000000000)], [upon .openBrace 36, past .blockItems 286,
    past .assignment 100, past .commandCall 101]⟩,
  .expecting .closeBrace 287, .yielding 149, ⟨0x8000000, [(150, 0x800000)], [upon .comma 288]⟩,
  .expecting .name 289, .body 290, .body 291]

private def programRows5 : List Row := [
  ⟨0x7e88016802046080, [], [upon .semicolon 293, past .forCondition 292, past .expression 243]⟩,
  .expecting .semicolon 294, ⟨0x7e81016002046080, [], [upon .closeParen 296, past .assignment 297]⟩,
  .reducing 55 0x8000000000000, ⟨0x1001000, [], [upon .assign 298, upon .inWord 299]⟩,
  ⟨0x5001000, [], [upon .assign 300, upon .inWord 301, upon .colon 302]⟩, .value 303,
  .expecting .openBrace 304, .ending 70, .reducing 186 0xff888168023fefff, .ending 76,
  ⟨0x300000000000000, [], [upon .commandName 305, upon .name 306]⟩, .operand .conditional 307,
  .yielding 127, .called 124 308, .yielding 128, .called 126 309, .yielding 129,
  ⟨0x1000008000000, [], [upon .closeParen 310, upon .comma 311]⟩, .reducing 142 0x3fffdffd400000,
  ⟨valueStart, [], [upon .name 194, past .argument 312]⟩, .value 313,
  .reducing 190 0x280000000000000, .yielding 152, .value 314, .reducing 195 0x2000008000000,
  .yielding 155,
  ⟨0x6200000000000000, [], [upon .name 269, upon .singleString 270, upon .doubleString 271, past .mapEntry 315]⟩,
  .reducing 197 0x2000008000000, ⟨0x4000000, [], []⟩, .expecting .colon 212, .expecting .colon 213,
  .reducing 158 0x2000008000000, .reducing 159 0x2000008000000, .reducing 160 0x2000008000000,
  .reducing 176 0x48000040000000, .block 316, .reducing 7 0xff880168023fee99,
  ⟨0x8000000, [(10, 0x1000000000000)], [upon .comma 317]⟩,
  ⟨0x300000000000000, [], [upon .commandName 225, upon .name 226, past .parameter 318]⟩,
  .reducing 12 0x1000008000000, .ending 29, .block 319, .reducing 9 0xff880168023fee99, .ending 31,
  .reducing 188 0x8800008000000, .expecting .closeBrace 320, .yielding 148]

private def programRows6 : List Row := [
  .expecting .name 321, .reducing 193 0x8800000, ⟨0x40, [(42, 0xff888168023feebb)], []⟩, .ending 43,
  .expecting .semicolon 323,
  ⟨0x7e81016002046080, [], [upon .closeParen 325, past .forUpdate 324, past .assignment 297]⟩,
  ⟨0x7e81016002046080, [], [upon .closeParen 327, past .forUpdate 326, past .assignment 297]⟩,
  .expecting .closeParen 328, .body 329, ⟨0x8000000, [(57, 0x1000000000000)], [upon .comma 331]⟩,
  .value 332, .value 333, .value 334, .value 335, .value 336, .expecting .closeParen 337,
  ⟨0x800000000022, [], [upon .closeBrace 340]⟩, .expecting .name 343, .expecting .closeParen 344,
  .reducing 92 0xb80000c000000, .yielding 123, .yielding 125, .reducing 141 0x3fffdffd400000,
  ⟨valueStart, [], [upon .name 194, past .argument 345]⟩, .reducing 191 0x1000008000000,
  .reducing 146 0x1000008000000, .reducing 196 0x2000008000000, .reducing 198 0x2000008000000,
  .reducing 6 0xff880168023fee99,
  ⟨0x300000000000000, [], [upon .commandName 225, upon .name 226, past .parameter 346]⟩,
  .reducing 177 0x1000008000000, .reducing 8 0xff880168023fee99, .yielding 147,
  .reducing 194 0x8800000, .body 347,
  ⟨0x7e81016002046080, [], [upon .closeParen 349, past .forUpdate 348, past .assignment 297]⟩,
  .expecting .closeParen 350, .body 351, .expecting .closeParen 352, .body 353, .body 354,
  .ending 51, ⟨0x8000000, [(56, 0x1000000000000)], [upon .comma 355]⟩,
  ⟨plainStart, [], [past .assignment 356]⟩, .reducing 52 0x8000000000000,
  .expecting .closeParen 357, .reducing 53 0x8000000000000, .expecting .closeParen 358]

private def programRows7 : List Row := [ .expecting .closeParen 359, .body 360,
  ⟨0x800000000022, [], [upon .defaultWord 361, upon .closeBrace 362, past .switchCase 363]⟩,
  .expecting .colon 364, .ending 67, .reducing 183 0x800000000022, .value 365,
  .expecting .closeParen 366, .block 367, .reducing 192 0x1000008000000,
  .reducing 178 0x1000008000000, .ending 41, .expecting .closeParen 368, .body 369, .body 370,
  .ending 47, .body 371, .ending 49, .ending 50, ⟨plainStart, [], [past .assignment 372]⟩,
  .reducing 181 0x1000008000000, .body 373, .body 374, .body 375, .ending 60, .expecting .colon 376,
  .ending 64, .reducing 184 0x800000000022,
  ⟨0x7f888168022fe699, [], [upon .closeBrace 378, upon .openBrace 36, past .statements 377, past .assignment 25]⟩,
  .expecting .colon 379, .block 380, .reducing 75 0xff888168023fefff, .body 381, .ending 45,
  .ending 46, .ending 48, .reducing 182 0x1000008000000, .ending 58, .ending 59, .ending 61,
  ⟨0x7f888168022fe699, [], [upon .closeBrace 383, upon .openBrace 36, past .statements 382, past .assignment 25]⟩,
  ⟨0x7f888168022fe699, [], [upon .closeBrace 384, upon .openBrace 36, past .statement 175, past .assignment 25]⟩,
  .ending 66,
  ⟨statementStart, [(69, 0x800000000022)], [upon .openBrace 36, past .statements 385, past .assignment 25]⟩,
  .reducing 74 0xff888168023fefff, .ending 44,
  ⟨0x7f888168022fe699, [], [upon .closeBrace 386, upon .openBrace 36, past .statement 175, past .assignment 25]⟩,
  .ending 63]

private def programRows8 : List Row := [ .ending 65,
  ⟨statementStart, [(68, 0x800000000022)], [upon .openBrace 36, past .statement 175, past .assignment 25]⟩,
  .ending 62]

def table : Table where
  rows := programRows0 ++ programRows1 ++ programRows2 ++ programRows3 ++ programRows4 ++ programRows5 ++
    programRows6 ++ programRows7 ++ programRows8
  usualShift := usualShift
  usualGoto := usualGoto

end GroovySharp.Grammar.ProgramTable
