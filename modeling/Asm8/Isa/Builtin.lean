import Asm8.Isa.Table

/-!
The built-in instruction table.

The instruction set of the teaching machine, as a text and as the table that the text says. The first
row of a mnemonic gives the opcode that stands in the image before the operands are known.
-/

namespace Asm8

/-- The lines of the text that lists the built-in table. -/
def Table.builtinLines : List String := [
    "// entry;opcode;pattern",
    "// The first variant of a mnemonic supplies the placeholder opcode written",
    "// before the operand shape of a line is known.",
    "",
    "// Control",
    "000;00;HALT",
    "010;FF;NOP",
    "020;FE;CLO",
    "030;FC;STI",
    "040;FD;CLI",
    "050;CB;RET",
    "060;CD;IRET",
    "070;EA;PUSHF",
    "080;EB;POPF",
    "",
    "// Subroutines, interrupts and ports",
    "100;CA;CALL ADDR",
    "110;CC;INT ADDR",
    "120;F0;IN ADDR",
    "130;F1;OUT ADDR",
    "",
    "// Stack, logic and shifts on one register",
    "200;E0;PUSH REG",
    "210;E1;POP REG",
    "220;AD;NOT REG",
    "230;9A;ROL REG",
    "240;9B;ROR REG",
    "250;9C;SHL REG",
    "260;9D;SHR REG",
    "",
    "// Relative jumps",
    "300;C0;JMP OFFSET",
    "310;C1;JZ OFFSET",
    "320;C2;JNZ OFFSET",
    "330;C3;JS OFFSET",
    "340;C4;JNS OFFSET",
    "350;C5;JO OFFSET",
    "360;C6;JNO OFFSET",
    "",
    "// Compare",
    "400;DA;CMP REG,REG",
    "410;DB;CMP REG,CONST",
    "420;DC;CMP REG,|ADDR|",
    "",
    "// Move",
    "500;D0;MOV REG,CONST",
    "510;D1;MOV REG,|ADDR|",
    "520;D2;MOV |ADDR|,REG",
    "530;D3;MOV REG,|REG|",
    "540;D4;MOV |REG|,REG",
    "550;D5;MOV REG,REG",
    "",
    "// Arithmetic and logic",
    "600;A0;ADD REG,REG",
    "601;B0;ADD REG,CONST",
    "610;A1;SUB REG,REG",
    "611;B1;SUB REG,CONST",
    "620;A2;MUL REG,REG",
    "621;B2;MUL REG,CONST",
    "630;A3;DIV REG,REG",
    "631;B3;DIV REG,CONST",
    "640;A6;MOD REG,REG",
    "641;B6;MOD REG,CONST",
    "650;AA;AND REG,REG",
    "651;BA;AND REG,CONST",
    "660;AB;OR REG,REG",
    "661;BB;OR REG,CONST",
    "670;AC;XOR REG,REG",
    "671;BC;XOR REG,CONST",
    "",
    "// Increment",
    "700;A4;INC REG",
    "710;A8;INC |REG|",
    "",
    "// Absolute jump",
    "800;C7;JPA ABSOLUTE",
    "",
    "// Decrement",
    "900;A5;DEC REG",
    "910;A9;DEC |ADDR|",
    "",
    "// Memory operands",
    "A00;B4;SWAP |ADDR|",
    "B00;B5;CLINC |REG|",
    "C00;B7;CPYD |REG|,CONST",
    "D00;B8;XCHG REG,REG"]

/-- The text of the built-in table. -/
def Table.builtinText : String :=
  String.join (builtinLines.map (· ++ "\n"))

/-- The instruction set that is used when no other table is given. -/
def Table.builtin : Table where
  rows := [
    ⟨"000", "HALT", 0x00, .implied⟩,
    ⟨"010", "NOP", 0xFF, .implied⟩,
    ⟨"020", "CLO", 0xFE, .implied⟩,
    ⟨"030", "STI", 0xFC, .implied⟩,
    ⟨"040", "CLI", 0xFD, .implied⟩,
    ⟨"050", "RET", 0xCB, .implied⟩,
    ⟨"060", "IRET", 0xCD, .implied⟩,
    ⟨"070", "PUSHF", 0xEA, .implied⟩,
    ⟨"080", "POPF", 0xEB, .implied⟩,
    ⟨"100", "CALL", 0xCA, .address⟩,
    ⟨"110", "INT", 0xCC, .address⟩,
    ⟨"120", "IN", 0xF0, .address⟩,
    ⟨"130", "OUT", 0xF1, .address⟩,
    ⟨"200", "PUSH", 0xE0, .register⟩,
    ⟨"210", "POP", 0xE1, .register⟩,
    ⟨"220", "NOT", 0xAD, .register⟩,
    ⟨"230", "ROL", 0x9A, .register⟩,
    ⟨"240", "ROR", 0x9B, .register⟩,
    ⟨"250", "SHL", 0x9C, .register⟩,
    ⟨"260", "SHR", 0x9D, .register⟩,
    ⟨"300", "JMP", 0xC0, .offset⟩,
    ⟨"310", "JZ", 0xC1, .offset⟩,
    ⟨"320", "JNZ", 0xC2, .offset⟩,
    ⟨"330", "JS", 0xC3, .offset⟩,
    ⟨"340", "JNS", 0xC4, .offset⟩,
    ⟨"350", "JO", 0xC5, .offset⟩,
    ⟨"360", "JNO", 0xC6, .offset⟩,
    ⟨"400", "CMP", 0xDA, .registerRegister⟩,
    ⟨"410", "CMP", 0xDB, .registerConst⟩,
    ⟨"420", "CMP", 0xDC, .registerAtAddress⟩,
    ⟨"500", "MOV", 0xD0, .registerConst⟩,
    ⟨"510", "MOV", 0xD1, .registerAtAddress⟩,
    ⟨"520", "MOV", 0xD2, .atAddressRegister⟩,
    ⟨"530", "MOV", 0xD3, .registerAtRegister⟩,
    ⟨"540", "MOV", 0xD4, .atRegisterRegister⟩,
    ⟨"550", "MOV", 0xD5, .registerRegister⟩,
    ⟨"600", "ADD", 0xA0, .registerRegister⟩,
    ⟨"601", "ADD", 0xB0, .registerConst⟩,
    ⟨"610", "SUB", 0xA1, .registerRegister⟩,
    ⟨"611", "SUB", 0xB1, .registerConst⟩,
    ⟨"620", "MUL", 0xA2, .registerRegister⟩,
    ⟨"621", "MUL", 0xB2, .registerConst⟩,
    ⟨"630", "DIV", 0xA3, .registerRegister⟩,
    ⟨"631", "DIV", 0xB3, .registerConst⟩,
    ⟨"640", "MOD", 0xA6, .registerRegister⟩,
    ⟨"641", "MOD", 0xB6, .registerConst⟩,
    ⟨"650", "AND", 0xAA, .registerRegister⟩,
    ⟨"651", "AND", 0xBA, .registerConst⟩,
    ⟨"660", "OR", 0xAB, .registerRegister⟩,
    ⟨"661", "OR", 0xBB, .registerConst⟩,
    ⟨"670", "XOR", 0xAC, .registerRegister⟩,
    ⟨"671", "XOR", 0xBC, .registerConst⟩,
    ⟨"700", "INC", 0xA4, .register⟩,
    ⟨"710", "INC", 0xA8, .atRegister⟩,
    ⟨"800", "JPA", 0xC7, .absolute⟩,
    ⟨"900", "DEC", 0xA5, .register⟩,
    ⟨"910", "DEC", 0xA9, .atAddress⟩,
    ⟨"A00", "SWAP", 0xB4, .atAddress⟩,
    ⟨"B00", "CLINC", 0xB5, .atRegister⟩,
    ⟨"C00", "CPYD", 0xB7, .atRegisterConst⟩,
    ⟨"D00", "XCHG", 0xB8, .registerRegister⟩,
    Row.ofEnd]

end Asm8
